import RenoP.Docker.Registry
import Mathlib.Data.List.Perm.Subperm
import Mathlib.Data.List.Infix

/-!
# The digests that a version lock captures

`setDockerLockVersionsTx` of `internal/database/docker_locks.go`: a breadth-first search from the
locked version over the stored manifests of its image, in batches of eight. Child manifests are
searched in turn, config and layers are only captured. `unmarshal` reads a stored manifest.
-/

namespace RenoP.Docker

open RenoP.Database (Text)

structure DockerLockManifest where
  config : Text
  layers : List Text
  manifests : List Text
  deriving DecidableEq

def DockerLockManifest.refs (m : DockerLockManifest) : List Text :=
  m.layers ++ m.manifests ++ [m.config]

def maxReferences : ℕ := 8192
def maxLockManifestBytes : ℤ := 4 * 2 ^ 20
def maxLockBytes : ℤ := 64 * 2 ^ 20

structure LockSearch where
  seen : List Text
  queued : List Text
  pending : List Text
  remainingBytes : ℤ

def LockSearch.start (version : Text) : LockSearch := ⟨[version], [version], [version], maxLockBytes⟩

variable (toLower : Char → Char) (unmarshal : Text → Option DockerLockManifest)

def validLockDigest (digest : Text) : Bool :=
  decide (utf8Length digest = 71) && digestPrefix.isPrefixOf digest &&
    decide (digest.map toLower = digest)

def addReference (seen : List Text) (digest : Text) : Except DockerError (List Text) :=
  if digest = [] ∨ digest ∈ seen then .ok seen
  else if !validLockDigest toLower digest then .error .manifestInvalid
  else if !(digest.drop 7).all (· ∈ hexDigits) ∨ seen.length ≥ maxReferences then
    .error .resourceLockInvalid
  else .ok (digest :: seen)

def addReferences : List Text → List Text → Except DockerError (List Text)
  | [], seen => .ok seen
  | digest :: digests, seen =>
    match addReference toLower seen digest with
    | .error err => .error err
    | .ok seen => addReferences digests seen

def queueChildren : List Text → LockSearch → LockSearch
  | [], s => s
  | child :: children, s =>
    if child = [] ∨ child ∈ s.queued then queueChildren children s
    else queueChildren children
      { s with queued := s.queued ++ [child], pending := s.pending ++ [child] }

def scanLockManifest (s : LockSearch) (raw : Text) : Except DockerError LockSearch :=
  let remaining := s.remainingBytes - utf8Length raw
  if utf8Length raw > maxLockManifestBytes ∨ remaining < 0 then .error .resourceLockInvalid
  else match unmarshal raw with
  | none => .error .manifestInvalid
  | some manifest =>
    match addReferences toLower manifest.refs s.seen with
    | .error err => .error err
    | .ok seen =>
      .ok (queueChildren manifest.manifests { s with seen := seen, remainingBytes := remaining })

def scanLockManifests : List Text → LockSearch → Except DockerError LockSearch
  | [], s => .ok s
  | raw :: rows, s =>
    match scanLockManifest toLower unmarshal s raw with
    | .error err => .error err
    | .ok s => scanLockManifests rows s

def lockRows (t : Tables) (image : ImageKey) (batch : List Text) : List Text :=
  t.manifests.entries.filterMap fun e =>
    if e.1.1 = image ∧ e.1.2 ∈ batch then some e.2.rawJSON else none

def lockSearch (t : Tables) (image : ImageKey) :
    ℕ → LockSearch → Option (Except DockerError (List Text))
  | 0, _ => none
  | fuel + 1, s =>
    if s.pending = [] then some (.ok s.seen)
    else match scanLockManifests toLower unmarshal (lockRows t image (s.pending.take 8))
        { s with pending := s.pending.drop 8 } with
    | .error err => some (.error err)
    | .ok s => lockSearch t image fuel s

variable {toLower : Char → Char} {unmarshal : Text → Option DockerLockManifest}

structure LockSearch.Ok (s : LockSearch) : Prop where
  seenNodup : s.seen.Nodup
  seenBound : s.seen.length ≤ maxReferences
  queuedNodup : s.queued.Nodup
  queuedSeen : ∀ d ∈ s.queued, d ∈ s.seen
  pendingQueued : s.pending <:+ s.queued

theorem LockSearch.Ok.queued_length {s : LockSearch} (h : s.Ok) : s.queued.length ≤ maxReferences := by
  have hsub : s.queued.length ≤ s.seen.length :=
    (List.subperm_of_subset h.queuedNodup h.queuedSeen).length_le
  have := h.seenBound
  omega

theorem start_ok (version : Text) : (LockSearch.start version).Ok where
  seenNodup := List.nodup_singleton version
  seenBound := by
    show 1 ≤ 8192
    omega
  queuedNodup := List.nodup_singleton version
  queuedSeen := fun _ hd => hd
  pendingQueued := List.suffix_refl _

theorem addReference_cases {seen seen' : List Text} {digest : Text}
    (h : addReference toLower seen digest = .ok seen') :
    (seen' = seen ∧ (digest = [] ∨ digest ∈ seen)) ∨
      (seen' = digest :: seen ∧ digest ∉ seen ∧ digest.map toLower = digest ∧
        seen.length < maxReferences) := by
  unfold addReference at h
  split_ifs at h with hold hform hhex
  · exact Or.inl ⟨(Except.ok.inj h).symm, hold⟩
  · push Not at hold hhex
    simp only [validLockDigest, Bool.not_eq_true', Bool.and_eq_false_iff, decide_eq_false_iff_not,
      not_or, not_not] at hform
    exact Or.inr ⟨(Except.ok.inj h).symm, hold.2, hform.2, hhex.2⟩

theorem addReferences_cases {digests : List Text} :
    ∀ {seen seen' : List Text}, addReferences toLower digests seen = .ok seen' →
      seen.Nodup → seen.length ≤ maxReferences →
      seen'.Nodup ∧ seen'.length ≤ maxReferences ∧ (∀ d ∈ seen, d ∈ seen') ∧
        (∀ d ∈ digests, d ≠ [] → d ∈ seen') ∧
          ∀ d ∈ seen', d ∈ seen ∨ d.map toLower = d := by
  induction digests with
  | nil =>
    intro seen seen' h hnodup hlen
    cases h
    refine ⟨hnodup, hlen, fun d hd => hd, ?_, fun d hd => Or.inl hd⟩
    intro d hd
    cases hd
  | cons digest digests ih =>
    intro seen seen' h hnodup hlen
    unfold addReferences at h
    cases hadd : addReference toLower seen digest with
    | error err =>
      rw [hadd] at h
      cases h
    | ok mid =>
      simp only [hadd] at h
      rcases addReference_cases hadd with ⟨rfl, hold⟩ | ⟨rfl, hnew, hfold, hroom⟩
      · obtain ⟨h1, h2, h3, h4, h5⟩ := ih h hnodup hlen
        refine ⟨h1, h2, h3, ?_, h5⟩
        intro d hd hne
        rcases List.mem_cons.mp hd with rfl | hd
        · exact h3 d (hold.resolve_left hne)
        · exact h4 d hd hne
      · have hmid : (digest :: seen).length ≤ maxReferences := by
          rw [List.length_cons]
          omega
        obtain ⟨h1, h2, h3, h4, h5⟩ := ih h (List.nodup_cons.mpr ⟨hnew, hnodup⟩) hmid
        refine ⟨h1, h2, fun d hd => h3 d (List.mem_cons_of_mem digest hd), ?_, ?_⟩
        · intro d hd hne
          rcases List.mem_cons.mp hd with rfl | hd
          · exact h3 d List.mem_cons_self
          · exact h4 d hd hne
        · intro d hd
          rcases h5 d hd with hmid | hfolded
          · rcases List.mem_cons.mp hmid with rfl | hseen
            · exact Or.inr hfold
            · exact Or.inl hseen
          · exact Or.inr hfolded

theorem queueChildren_cases {children : List Text} :
    ∀ {s : LockSearch}, s.Ok → (∀ d ∈ children, d ≠ [] → d ∈ s.seen) →
      ∃ new, queueChildren children s =
          { s with queued := s.queued ++ new, pending := s.pending ++ new } ∧
        (queueChildren children s).Ok ∧
          ∀ d ∈ children, d ≠ [] → d ∈ (queueChildren children s).queued := by
  induction children with
  | nil =>
    intro s hs _
    refine ⟨[], ?_, hs, ?_⟩
    · simp only [queueChildren, List.append_nil]
    · intro d hd
      cases hd
  | cons child children ih =>
    intro s hs hseen
    have hrest : ∀ d ∈ children, d ≠ [] → d ∈ s.seen :=
      fun d hd => hseen d (List.mem_cons_of_mem child hd)
    unfold queueChildren
    split_ifs with hold
    · obtain ⟨new, heq, hok, hall⟩ := ih hs hrest
      refine ⟨new, heq, hok, ?_⟩
      intro d hd hne
      rcases List.mem_cons.mp hd with rfl | hd
      · rw [heq]
        exact List.mem_append_left new (hold.resolve_left hne)
      · exact hall d hd hne
    · push Not at hold
      have hs' : LockSearch.Ok
          { s with queued := s.queued ++ [child], pending := s.pending ++ [child] } := by
        refine ⟨hs.seenNodup, hs.seenBound, ?_, ?_, ?_⟩
        · show (s.queued ++ [child]).Nodup
          rw [List.nodup_append]
          refine ⟨hs.queuedNodup, List.nodup_singleton child, ?_⟩
          intro a ha b hb hab
          rw [List.mem_singleton] at hb
          rw [hab, hb] at ha
          exact hold.2 ha
        · intro d hd
          rcases List.mem_append.mp hd with hd | hd
          · exact hs.queuedSeen d hd
          · rw [List.mem_singleton] at hd
            rw [hd]
            exact hseen child List.mem_cons_self hold.1
        · obtain ⟨done, hdone⟩ := hs.pendingQueued
          refine ⟨done, ?_⟩
          show done ++ (s.pending ++ [child]) = s.queued ++ [child]
          rw [← List.append_assoc, hdone]
      obtain ⟨new, heq, hok, hall⟩ := ih hs' hrest
      refine ⟨child :: new, ?_, hok, ?_⟩
      · rw [heq]
        simp only [List.append_assoc, List.singleton_append]
      · intro d hd hne
        rcases List.mem_cons.mp hd with rfl | hd
        · rw [heq]
          exact List.mem_append_left new (List.mem_append_right _ (List.mem_singleton.mpr rfl))
        · exact hall d hd hne

structure Scanned (toLower : Char → Char) (s s' : LockSearch) : Prop where
  ok : s'.Ok
  seen : ∀ d ∈ s.seen, d ∈ s'.seen
  folded : ∀ d ∈ s'.seen, d ∈ s.seen ∨ d.map toLower = d
  queues : ∃ new, s'.queued = s.queued ++ new ∧ s'.pending = s.pending ++ new

theorem Scanned.refl {s : LockSearch} (h : s.Ok) : Scanned toLower s s :=
  ⟨h, fun _ hd => hd, fun _ hd => Or.inl hd, [], (List.append_nil _).symm, (List.append_nil _).symm⟩

theorem Scanned.trans {s s₁ s₂ : LockSearch} (h : Scanned toLower s s₁)
    (h' : Scanned toLower s₁ s₂) : Scanned toLower s s₂ where
  ok := h'.ok
  seen := fun d hd => h'.seen d (h.seen d hd)
  folded := by
    intro d hd
    rcases h'.folded d hd with hmid | hfold
    · exact h.folded d hmid
    · exact Or.inr hfold
  queues := by
    obtain ⟨new, hq, hp⟩ := h.queues
    obtain ⟨new', hq', hp'⟩ := h'.queues
    refine ⟨new ++ new', ?_, ?_⟩
    · rw [hq', hq, List.append_assoc]
    · rw [hp', hp, List.append_assoc]

theorem Scanned.queued {s s' : LockSearch} (h : Scanned toLower s s') {d : Text}
    (hd : d ∈ s.queued) : d ∈ s'.queued := by
  obtain ⟨new, hq, _⟩ := h.queues
  rw [hq]
  exact List.mem_append_left new hd

def LockSearch.Has (s : LockSearch) (m : DockerLockManifest) : Prop :=
  (∀ d ∈ m.refs, d ≠ [] → d ∈ s.seen) ∧ ∀ d ∈ m.manifests, d ≠ [] → d ∈ s.queued

theorem Scanned.has {s s' : LockSearch} (h : Scanned toLower s s') {m : DockerLockManifest}
    (hm : s.Has m) : s'.Has m :=
  ⟨fun d hd hne => h.seen d (hm.1 d hd hne), fun d hd hne => h.queued (hm.2 d hd hne)⟩

theorem scanLockManifest_cases {s s' : LockSearch} {raw : Text} (hs : s.Ok)
    (h : scanLockManifest toLower unmarshal s raw = .ok s') :
    Scanned toLower s s' ∧ ∃ m, unmarshal raw = some m ∧ s'.Has m := by
  simp only [scanLockManifest] at h
  split_ifs at h
  cases hm : unmarshal raw with
  | none =>
    rw [hm] at h
    cases h
  | some m =>
    simp only [hm] at h
    cases hadd : addReferences toLower m.refs s.seen with
    | error err =>
      rw [hadd] at h
      cases h
    | ok seen =>
      simp only [hadd] at h
      obtain ⟨h1, h2, h3, h4, h5⟩ := addReferences_cases hadd hs.seenNodup hs.seenBound
      have hs' : LockSearch.Ok
          { s with seen := seen, remainingBytes := s.remainingBytes - utf8Length raw } :=
        ⟨h1, h2, hs.queuedNodup, fun d hd => h3 d (hs.queuedSeen d hd), hs.pendingQueued⟩
      have hchildren : ∀ d ∈ m.manifests, d ≠ [] → d ∈ seen := by
        intro d hd hne
        apply h4 d _ hne
        exact List.mem_append_left _ (List.mem_append_right _ hd)
      obtain ⟨new, heq, hok, hall⟩ := queueChildren_cases hs' hchildren
      cases h
      have hseen : (queueChildren m.manifests
          { s with seen := seen, remainingBytes := s.remainingBytes - utf8Length raw }).seen =
            seen := by
        rw [heq]
      refine ⟨⟨hok, ?_, ?_, new, ?_, ?_⟩, m, rfl, ?_, hall⟩
      · intro d hd
        rw [hseen]
        exact h3 d hd
      · intro d hd
        rw [hseen] at hd
        exact h5 d hd
      · rw [heq]
      · rw [heq]
      · intro d hd hne
        rw [hseen]
        exact h4 d hd hne

theorem scanLockManifests_cases {rows : List Text} :
    ∀ {s s' : LockSearch}, s.Ok → scanLockManifests toLower unmarshal rows s = .ok s' →
      Scanned toLower s s' ∧ ∀ raw ∈ rows, ∃ m, unmarshal raw = some m ∧ s'.Has m := by
  induction rows with
  | nil =>
    intro s s' hs h
    cases h
    refine ⟨Scanned.refl hs, ?_⟩
    intro raw hraw
    cases hraw
  | cons raw rows ih =>
    intro s s' hs h
    unfold scanLockManifests at h
    cases hrow : scanLockManifest toLower unmarshal s raw with
    | error err =>
      rw [hrow] at h
      cases h
    | ok mid =>
      simp only [hrow] at h
      obtain ⟨hscan, m, hm, hhas⟩ := scanLockManifest_cases hs hrow
      obtain ⟨hrest, hall⟩ := ih hscan.ok h
      refine ⟨hscan.trans hrest, ?_⟩
      intro raw' hraw
      rcases List.mem_cons.mp hraw with rfl | hraw
      · exact ⟨m, hm, hrest.has hhas⟩
      · exact hall raw' hraw

theorem LockSearch.Ok.drop {s : LockSearch} (h : s.Ok) (n : ℕ) :
    LockSearch.Ok { s with pending := s.pending.drop n } :=
  ⟨h.seenNodup, h.seenBound, h.queuedNodup, h.queuedSeen,
    (List.drop_suffix n s.pending).trans h.pendingQueued⟩

theorem lockSearch_ends (t : Tables) (image : ImageKey) :
    ∀ (fuel : ℕ) (s : LockSearch), s.Ok →
      maxReferences < fuel + (s.queued.length - s.pending.length) →
      ∃ result, lockSearch toLower unmarshal t image fuel s = some result := by
  intro fuel
  induction fuel with
  | zero =>
    intro s hs hfuel
    have := hs.queued_length
    omega
  | succ fuel ih =>
    intro s hs hfuel
    unfold lockSearch
    split_ifs with hpending
    · exact ⟨_, rfl⟩
    · cases hscan : scanLockManifests toLower unmarshal (lockRows t image (s.pending.take 8))
          { s with pending := s.pending.drop 8 } with
      | error err => exact ⟨_, rfl⟩
      | ok s' =>
        obtain ⟨hscanned, _⟩ := scanLockManifests_cases (hs.drop 8) hscan
        apply ih s' hscanned.ok
        obtain ⟨new, hq, hp⟩ := hscanned.queues
        have hpos : 0 < s.pending.length := List.length_pos_of_ne_nil hpending
        have hle := hs.pendingQueued.length_le
        rw [hq, hp]
        simp only [List.length_append, List.length_drop]
        omega

theorem lockSearch_start_ends (t : Tables) (image : ImageKey) (version : Text) :
    ∃ result, lockSearch toLower unmarshal t image (maxReferences + 1) (.start version) =
      some result :=
  lockSearch_ends t image _ _ (start_ok version) (by show 8192 < 8192 + 1 + (1 - 1); omega)

def Tables.lockManifest (unmarshal : Text → Option DockerLockManifest) (t : Tables)
    (image : ImageKey) (digest : Text) : Option DockerLockManifest :=
  (t.manifests.load (image, digest)).bind fun row => unmarshal row.rawJSON

theorem mem_lockRows {t : Tables} {image : ImageKey} {batch : List Text} {d : Text}
    {row : ManifestRow} (hd : d ∈ batch) (hrow : t.manifests.load (image, d) = some row) :
    row.rawJSON ∈ lockRows t image batch := by
  unfold lockRows
  rw [List.mem_filterMap]
  refine ⟨⟨(image, d), row⟩, (GoMap.mem_entries_iff _ _ _).mpr hrow, ?_⟩
  exact if_pos ⟨rfl, hd⟩

def LockSearch.Done (unmarshal : Text → Option DockerLockManifest) (t : Tables) (image : ImageKey)
    (s : LockSearch) : Prop :=
  ∀ d ∈ s.queued, d ∉ s.pending → ∀ row, t.manifests.load (image, d) = some row →
    ∃ m, unmarshal row.rawJSON = some m ∧ s.Has m

theorem LockSearch.Done.round {t : Tables} {image : ImageKey} {s s' : LockSearch} (hs : s.Ok)
    (hd : s.Done unmarshal t image)
    (h : scanLockManifests toLower unmarshal (lockRows t image (s.pending.take 8))
      { s with pending := s.pending.drop 8 } = .ok s') : s'.Done unmarshal t image := by
  obtain ⟨hscanned, hrows⟩ := scanLockManifests_cases (hs.drop 8) h
  obtain ⟨new, hq, hp⟩ := hscanned.queues
  intro d hdq hdp row hrow
  rw [hq, List.mem_append] at hdq
  rw [hp, List.mem_append, not_or] at hdp
  have hold : d ∈ s.queued := hdq.resolve_right hdp.2
  by_cases hpending : d ∈ s.pending
  · have hbatch : d ∈ s.pending.take 8 := by
      rw [← List.take_append_drop 8 s.pending, List.mem_append] at hpending
      exact hpending.resolve_right hdp.1
    exact hrows _ (mem_lockRows hbatch hrow)
  · obtain ⟨m, hm, hhas⟩ := hd d hold hpending row hrow
    refine ⟨m, hm, hscanned.has ?_⟩
    exact hhas

theorem lockSearch_covers {t : Tables} {image : ImageKey} {seen : List Text} :
    ∀ (fuel : ℕ) (s : LockSearch), s.Ok → s.Done unmarshal t image →
      lockSearch toLower unmarshal t image fuel s = some (.ok seen) →
      (∀ d ∈ s.seen, d ∈ seen) ∧ (∀ d ∈ seen, d ∈ s.seen ∨ d.map toLower = d) ∧
        ∃ queue : List Text, (∀ d ∈ s.queued, d ∈ queue) ∧ ∀ d ∈ queue, ∀ row,
          t.manifests.load (image, d) = some row → ∃ m, unmarshal row.rawJSON = some m ∧
            (∀ r ∈ m.refs, r ≠ [] → r ∈ seen) ∧ ∀ r ∈ m.manifests, r ≠ [] → r ∈ queue := by
  intro fuel
  induction fuel with
  | zero =>
    intro s _ _ h
    cases h
  | succ fuel ih =>
    intro s hs hdone h
    unfold lockSearch at h
    split_ifs at h with hpending
    · cases h
      refine ⟨fun d hd => hd, fun d hd => Or.inl hd, s.queued, fun d hd => hd, ?_⟩
      intro d hd row hrow
      obtain ⟨m, hm, hhas⟩ := hdone d hd (by rw [hpending]; exact List.not_mem_nil) row hrow
      exact ⟨m, hm, hhas.1, hhas.2⟩
    · cases hscan : scanLockManifests toLower unmarshal (lockRows t image (s.pending.take 8))
          { s with pending := s.pending.drop 8 } with
      | error err =>
        rw [hscan] at h
        cases h
      | ok s' =>
        simp only [hscan] at h
        obtain ⟨hscanned, _⟩ := scanLockManifests_cases (hs.drop 8) hscan
        obtain ⟨h1, h2, queue, h3, h4⟩ := ih s' hscanned.ok (hdone.round hs hscan) h
        refine ⟨fun d hd => h1 d (hscanned.seen d hd), ?_, queue,
          fun d hd => h3 d (hscanned.queued hd), h4⟩
        intro d hd
        rcases h2 d hd with hmid | hfold
        · exact hscanned.folded d hmid
        · exact Or.inr hfold

/-- `b` is a child manifest of the stored manifest `a`. -/
def ChildManifest (unmarshal : Text → Option DockerLockManifest) (t : Tables) (image : ImageKey)
    (a b : Text) : Prop :=
  ∃ m, t.lockManifest unmarshal image a = some m ∧ b ∈ m.manifests ∧ b ≠ []

def VersionManifest (unmarshal : Text → Option DockerLockManifest) (t : Tables) (image : ImageKey)
    (version : Text) : Text → Prop :=
  Relation.ReflTransGen (ChildManifest unmarshal t image) version

def Needs (unmarshal : Text → Option DockerLockManifest) (t : Tables) (image : ImageKey)
    (version d : Text) : Prop :=
  d = version ∨ ∃ a m, VersionManifest unmarshal t image version a ∧
    t.lockManifest unmarshal image a = some m ∧ d ∈ m.refs ∧ d ≠ []

theorem lockManifest_cases {t : Tables} {image : ImageKey} {d : Text} {m : DockerLockManifest}
    (h : t.lockManifest unmarshal image d = some m) :
    ∃ row, t.manifests.load (image, d) = some row ∧ unmarshal row.rawJSON = some m :=
  Option.bind_eq_some_iff.mp h

theorem done_start (t : Tables) (image : ImageKey) (version : Text) :
    (LockSearch.start version).Done unmarshal t image := by
  intro d hd hnot
  exact absurd hd hnot

theorem lockSearch_needs {t : Tables} {image : ImageKey} {version : Text} {seen : List Text}
    {fuel : ℕ} (h : lockSearch toLower unmarshal t image fuel (.start version) = some (.ok seen))
    {d : Text} (hd : Needs unmarshal t image version d) : d ∈ seen := by
  obtain ⟨hstart, -, queue, hqueue, hclosed⟩ :=
    lockSearch_covers fuel _ (start_ok version) (done_start t image version) h
  rcases hd with rfl | ⟨a, m, hreach, hm, href, hne⟩
  · exact hstart d (List.mem_singleton.mpr rfl)
  · have hqueued : a ∈ queue := by
      clear hm
      induction hreach with
      | refl => exact hqueue version (List.mem_singleton.mpr rfl)
      | tail _ hchild ih =>
        obtain ⟨m', hm', hmem, hne'⟩ := hchild
        obtain ⟨row, hrow, hraw⟩ := lockManifest_cases hm'
        obtain ⟨m'', hm'', -, hchildren⟩ := hclosed _ ih row hrow
        rw [hraw] at hm''
        cases hm''
        exact hchildren _ hmem hne'
    obtain ⟨row, hrow, hraw⟩ := lockManifest_cases hm
    obtain ⟨m', hm', hrefs, -⟩ := hclosed a hqueued row hrow
    rw [hraw] at hm'
    cases hm'
    exact hrefs d href hne

theorem lockSearch_folded {t : Tables} {image : ImageKey} {version : Text} {seen : List Text}
    {fuel : ℕ} (h : lockSearch toLower unmarshal t image fuel (.start version) = some (.ok seen))
    {d : Text} (hd : d ∈ seen) : d = version ∨ d.map toLower = d := by
  obtain ⟨-, hfolded, -⟩ :=
    lockSearch_covers fuel _ (start_ok version) (done_start t image version) h
  rcases hfolded d hd with hstart | hfold
  · exact Or.inl (List.mem_singleton.mp hstart)
  · exact Or.inr hfold

variable (toLower : Char → Char) (unmarshal : Text → Option DockerLockManifest)

def lockVersionSet (t : Tables) (image : ImageKey) (version : Text) :
    Except DockerError (List Text) :=
  (lockSearch toLower unmarshal t image (maxReferences + 1) (.start version)).get
    (Option.isSome_iff_exists.mpr (lockSearch_start_ends t image version))

theorem lockSearch_of_lockVersionSet {t : Tables} {image : ImageKey} {version : Text}
    {seen : List Text} (h : lockVersionSet toLower unmarshal t image version = .ok seen) :
    lockSearch toLower unmarshal t image (maxReferences + 1) (.start version) =
      some (.ok seen) := by
  unfold lockVersionSet at h
  rw [← h, Option.some_get]

def setDockerLockVersionsTx (t : Tables) (image : ImageKey) (version : Text) (source : LockSource) :
    Except DockerError Tables :=
  let lock := (LockTarget.docker image version, source)
  match lockDockerImageRow t image with
  | .error err => .error err
  | .ok () =>
    let cleared := t.lockVersions.deleteWhere fun k _ => decide (k.1 = lock)
    if version = [] then .ok { t with lockVersions := cleared }
    else match lockVersionSet toLower unmarshal t image version with
    | .error err => .error err
    | .ok seen =>
      let captured := seen.filter fun d => d ≠ version
      .ok { t with lockVersions := cleared.storeAll (captured.map fun d => ((lock, d), ())) }

/-- `SetResourceLock` of a Docker target; `refused` stands for the permissions of the actor. -/
def setResourceLock (t : Tables) (image : ImageKey) (version : Text) (source : LockSource)
    (mode : LockMode) (refused : Bool) : Except DockerError Tables :=
  let version := version.map toLower
  if !validLockVersion version ∨ refused then .error .resourceLockInvalid
  else match setDockerLockVersionsTx toLower unmarshal t image version source with
  | .error err => .error err
  | .ok t => .ok { t with locks := t.locks.store (.docker image version, source) mode }

def deleteResourceLock (t : Tables) (image : ImageKey) (version : Text) (source : LockSource)
    (refused : Bool) : Except DockerError Tables :=
  let version := version.map toLower
  if !validLockVersion version ∨ refused then .error .resourceLockInvalid
  else
    let lock := (LockTarget.docker image version, source)
    .ok { t with
      lockVersions := t.lockVersions.deleteWhere fun k _ => decide (k.1 = lock)
      locks := t.locks.delete lock }

end RenoP.Docker
