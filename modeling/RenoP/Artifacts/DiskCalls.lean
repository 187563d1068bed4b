import RenoP.Artifacts.DiskRules

/-!
# Calls of the content store on disk

Each call beside the others.
-/

namespace RenoP.Artifacts

open Process

variable {P : Type} [DecidableEq P] {hash : Hash} {strict : Prop} {s t u : Store P} {id : ℕ}
  {op : Op P} {kind : Kind} {old : Name P} {target : P} {data : Bytes}

theorem serve_fingerprint {name : Name P} (c : Choice) (s t : Store P) (x : Option ContentKey)
    (h : serve hash id (.fingerprint name) c s = some (t, x)) :
    Quiet s t ∧ (x = none ∨ x = fingerprintOf hash t.disk name) := by
  cases c with
  | ok =>
    cases h
    exact ⟨Quiet.refl s, Or.inr rfl⟩
  | failed =>
    cases h
    exact ⟨Quiet.refl s, Or.inl rfl⟩
  | missing => cases h
  | short m => cases h

theorem serve_openFile {name : Name P} (c : Choice) (s t : Store P) (x : Option ℕ)
    (h : serve hash id (.openFile name) c s = some (t, x)) :
    Quiet s t ∧ (x = none ∨ x = t.disk.names name) := by
  cases c with
  | ok =>
    cases h
    exact ⟨Quiet.refl s, Or.inr rfl⟩
  | failed =>
    cases h
    exact ⟨Quiet.refl s, Or.inl rfl⟩
  | missing => cases h
  | short m => cases h

def IsQuiet : Request P → Prop
  | .mkdirAll | .lock _ | .tryLock _ | .unlock _ | .candidate _ | .setCandidate .. |
    .addCandidate .. | .stat _ => True
  | _ => False

theorem serve_quiet {r : Request P} (hr : IsQuiet r) (c : Choice) (s t : Store P) (x : Response r)
    (h : serve hash id r c s = some (t, x)) : Quiet s t ∧ True := by
  refine ⟨?_, trivial⟩
  cases r with
  | mkdirAll => cases c <;> cases h <;> exact Quiet.refl s
  | lock key =>
    cases c with
    | ok =>
      unfold serve at h
      dsimp only at h
      split_ifs at h
      cases h
      exact ⟨rfl, rfl, rfl, rfl, rfl⟩
    | _ => cases h
  | tryLock key =>
    cases c with
    | ok =>
      unfold serve at h
      dsimp only at h
      split_ifs at h <;> cases h
      · exact Quiet.refl s
      · exact ⟨rfl, rfl, rfl, rfl, rfl⟩
    | _ => cases h
  | unlock key =>
    cases c with
    | ok =>
      cases h
      exact ⟨rfl, rfl, rfl, rfl, rfl⟩
    | _ => cases h
  | candidate key =>
    cases c with
    | ok =>
      cases h
      exact Quiet.refl s
    | _ => cases h
  | setCandidate key target =>
    cases c with
    | ok =>
      cases h
      exact ⟨rfl, rfl, rfl, rfl, rfl⟩
    | _ => cases h
  | addCandidate key target =>
    cases c with
    | ok =>
      cases h
      exact ⟨rfl, rfl, rfl, rfl, rfl⟩
    | _ => cases h
  | stat name => cases c <;> cases h <;> exact Quiet.refl s
  | _ => exact absurd hr (by intro h; cases h)

theorem sound_asks {α : Type} {post : α → Store P → Prop} {r : Request P}
    {k : Response r → Process (Request P) Response α} (hr : IsQuiet r)
    (hnext : ∀ x t, Rely id op s t → Call.Sound hash strict id op post (k x) t) :
    Call.Sound hash strict id op post (ask r >>= k) s :=
  sound_quiet (fun _ _ => True) (serve_quiet hr) fun x t hrely _ => hnext x t hrely

/-- What `SafeRename` has done when it returns. -/
structure Attempted (id : ℕ) (op : Op P) (kind : Kind) (old : Name P) (target : P) (data : Bytes)
    (s : Store P) (ok : Bool) (t : Store P) : Prop where
  moved : Moved id op (fun q => q = old ∨ q = .copy id) s t
  installed : ok = true → t.by id = installedBy id target data kind ++ s.by id
  failed : ok = false → t.by id = s.by id ∧ Moved id op (· = .copy id) s t

omit [DecidableEq P] in
theorem Attempted.after {ok : Bool} (h : Attempted id op kind old target data t ok u)
    (hmoved : Moved id op (· = .copy id) s t) (hby : t.by id = s.by id) :
    Attempted id op kind old target data s ok u where
  moved := (hmoved.mono fun _ hq => Or.inr hq).trans h.moved
  installed hok := by rw [h.installed hok, hby]
  failed hok := ⟨(h.failed hok).1.trans hby, hmoved.trans (h.failed hok).2⟩

omit [DecidableEq P] in
theorem attempted_failed (hmoved : Moved id op (· = .copy id) s t) (hby : t.by id = s.by id) :
    Attempted id op kind old target data s false t where
  moved := hmoved.mono fun _ hq => Or.inr hq
  installed h := by cases h
  failed _ := ⟨hby, hmoved⟩

theorem sound_copyAttempts (attempts : ℕ)
    (h : Installs op kind (.copy id) target data s) :
    Call.Sound hash strict id op
      (fun (ok : Bool) t => Moved id op (· = .copy id) s t ∧
        t.by id = if ok then installedBy id target data kind ++ s.by id else s.by id)
      (copyAttempts id kind target attempts) s := by
  have hown : Owns id op (.copy id) := rfl
  induction attempts generalizing s with
  | zero => exact ⟨(Rely.refl s).moved, rfl⟩
  | succ attempts ih =>
    apply sound_rename hown h
    · intro t hmoved hby
      rw [if_pos rfl]
      exact ⟨hmoved, hby⟩
    · intro x t hx hrely
      rw [if_neg hx]
      refine (ih (h.later hown hrely)).mono ?_
      rintro ok u ⟨hmoved, hby⟩
      rw [hrely.writes] at hby
      exact ⟨hrely.moved.trans hmoved, hby⟩

theorem sound_copyAndReplace (hown : Owns id op old) (hne : old ≠ .copy id)
    (h : Installs op kind old target data s) :
    Call.Sound hash strict id op
      (fun (ok : Bool) t => Moved id op (· = .copy id) s t ∧
        t.by id = if ok then installedBy id target data kind ++ s.by id else s.by id)
      (copyAndReplace id kind old target) s := by
  have hcopy : Owns id op (.copy id) := rfl
  refine sound_quiet (fun (x : Option ℕ) t => x = none ∨ x = t.disk.names old) serve_openFile ?_
  intro source t hrely hsource
  cases source with
  | none => exact ⟨hrely.moved, hrely.writes⟩
  | some inode =>
    have hinode : t.disk.names old = some inode :=
      (hsource.resolve_left (by intro heq; cases heq)).symm
    have ht := h.later hown hrely
    have hdata : t.disk.bytes inode = data := by
      have hread := ht.read
      unfold Inodes.read at hread
      rw [hinode] at hread
      exact Option.some.inj hread
    refine sound_create hcopy ?_
    intro created u hcreated hby hopen
    have hmoved : Moved id op (· = .copy id) s u := hrely.moved.trans hcreated
    have hwrites : u.by id = s.by id := hby.trans hrely.writes
    cases created with
    | false => exact ⟨hmoved, hwrites⟩
    | true =>
      rw [if_neg (by decide)]
      have hsame := hcreated.names old hown hne
      have hother : u.disk.names old = some inode := hsame.1.trans hinode
      have hbytes : u.disk.bytes inode = data := (hsame.2 inode hinode).trans hdata
      refine sound_copy hcopy trivial (hopen rfl) hown hother hbytes ?_
      intro copied v hcopied hby' hread
      have hmoved' : Moved id op (· = .copy id) s v := hmoved.trans hcopied
      have hwrites' : v.by id = s.by id := hby'.trans hwrites
      refine Sound.bind (show Call.Sound hash strict id op
        (fun (ok : Bool) w => Moved id op (· = .copy id) s w ∧
          w.by id = if ok then installedBy id target data kind ++ s.by id else s.by id)
        (installCopy id kind target copied) v from ?_) ?_
      · cases copied with
        | false => exact ⟨hmoved', hwrites'⟩
        | true =>
          have hinstalls : Installs op kind (.copy id) target data v := by
            refine ⟨hread rfl, h.writes, fun _ => trivial, fun hkind => ?_⟩
            obtain ⟨hop, htarget⟩ := h.reuse hkind
            exact ⟨hop, (hmoved'.target target hop).trans htarget⟩
          refine (sound_copyAttempts 8 hinstalls).mono ?_
          rintro ok w ⟨hmoved'', hby''⟩
          rw [hwrites'] at hby''
          exact ⟨hmoved'.trans hmoved'', hby''⟩
      · rintro ok w ⟨hmoved'', hby''⟩
        refine sound_remove hcopy ?_
        intro _ z hremoved hby''' _
        exact ⟨hmoved''.trans hremoved, hby'''.trans hby''⟩

theorem sound_renameByCopy (hown : Owns id op old) (hne : old ≠ .copy id)
    (h : Installs op kind old target data s) :
    Call.Sound hash strict id op (Attempted id op kind old target data s)
      (renameByCopy id kind old target) s := by
  refine sound_asks trivial ?_
  intro found t hrely
  split_ifs
  · exact attempted_failed hrely.moved hrely.writes
  · refine Sound.bind (sound_copyAndReplace hown hne (h.later hown hrely)) ?_
    rintro replaced u ⟨hmoved, hby⟩
    cases replaced with
    | false => exact attempted_failed (hrely.moved.trans hmoved) (hby.trans hrely.writes)
    | true =>
      refine sound_remove hown ?_
      intro _ v hremoved hby' _
      constructor
      · exact ((hrely.moved.trans hmoved).mono fun _ hq => Or.inr hq).trans
          (hremoved.mono fun _ hq => Or.inl hq)
      · intro _
        rw [hby', hby, if_pos rfl, hrely.writes]
      · intro h
        cases h

theorem sound_renameAttempts (hown : Owns id op old) (hne : old ≠ .copy id) (attempts : ℕ)
    (h : Installs op kind old target data s) :
    Call.Sound hash strict id op (Attempted id op kind old target data s)
      (renameAttempts id kind old target attempts) s := by
  induction attempts generalizing s with
  | zero => exact sound_renameByCopy hown hne h
  | succ attempts ih =>
    apply sound_rename hown h
    · intro t hmoved hby
      exact ⟨hmoved.mono fun _ hq => Or.inl hq, fun _ => hby, (fun h => by cases h)⟩
    · intro x t hx hrely
      cases x with
      | ok => exact absurd rfl hx
      | notExist => exact attempted_failed hrely.moved hrely.writes
      | failed =>
        exact (ih (h.later hown hrely)).mono fun ok u hu => hu.after hrely.moved hrely.writes

theorem sound_safeRename (hown : Owns id op old) (hne : old ≠ .copy id)
    (h : Installs op kind old target data s) :
    Call.Sound hash strict id op (Attempted id op kind old target data s)
      (safeRename id kind old target) s := by
  refine sound_asks trivial ?_
  intro made t hrely
  split_ifs
  · exact attempted_failed hrely.moved hrely.writes
  · exact (sound_renameAttempts hown hne 8 (h.later hown hrely)).mono
      fun ok u hu => hu.after hrely.moved hrely.writes

theorem sound_absent (hown : Owns id op old) (hnone : s.disk.names old = none) :
    Call.Sound hash strict id op (fun ok t => ok = false ∧ Rely id op s t)
      (safeRename id kind old target) s := by
  have hattempts : ∀ attempts {s : Store P}, s.disk.names old = none →
      Call.Sound hash strict id op (fun ok t => ok = false ∧ Rely id op s t)
        (renameAttempts id kind old target attempts) s := by
    intro attempts
    induction attempts with
    | zero =>
      intro s hs
      refine sound_quiet (fun (x : Option ℕ) t => x = none ∨ x = t.disk.names old) ?_ ?_
      · intro c s t x h
        cases c with
        | ok =>
          cases h
          exact ⟨Quiet.refl s, Or.inr rfl⟩
        | failed =>
          cases h
          exact ⟨Quiet.refl s, Or.inl rfl⟩
        | missing => cases h
        | short m => cases h
      · intro found t hrely hfound
        have hgone : t.disk.names old = none := (hrely.names old hown).1.trans hs
        rw [hgone, or_self] at hfound
        rw [if_pos hfound]
        exact ⟨rfl, hrely⟩
    | succ attempts ih =>
      intro s hs
      refine Sound.step (fun (x : Renamed) t => x ≠ .ok ∧ Rely id op s t) ?_ ?_
      · intro n s' hid hinv hrely c t x _ hserve
        have hgone : s'.disk.names old = none := (hrely.names old hown).1.trans hs
        cases c with
        | ok =>
          obtain ⟨disk, hrename, -⟩ := Option.map_eq_some_iff.mp hserve
          obtain ⟨i, hi, -⟩ := Inodes.rename_cases hrename
          cases hgone.symm.trans hi
        | missing =>
          cases hserve
          exact ⟨hinv, (Quiet.refl s').guar, by decide, hrely⟩
        | failed =>
          cases hserve
          exact ⟨hinv, (Quiet.refl s').guar, by decide, hrely⟩
        | short m => cases hserve
      · rintro x t ⟨hx, hrely⟩
        cases x with
        | ok => exact absurd rfl hx
        | notExist => exact ⟨rfl, hrely⟩
        | failed =>
          exact (ih ((hrely.names old hown).1.trans hs)).mono
            fun ok u hu => ⟨hu.1, hrely.trans hu.2⟩
  refine sound_asks trivial ?_
  intro made t hrely
  split_ifs
  · exact ⟨rfl, hrely⟩
  · exact (hattempts 8 ((hrely.names old hown).1.trans hnone)).mono
      fun ok u hu => ⟨hu.1, hrely.trans hu.2⟩

def Unlinked (id : ℕ) (s : Store P) : Prop := id ∈ s.kept ∨ s.disk.names (.linked id) = none

omit [DecidableEq P] in
theorem Unlinked.moved {touched : Name P → Prop} (h : Unlinked id s)
    (hmoved : Moved id op touched s t) (hlinked : ¬touched (.linked id)) : Unlinked id t := by
  rcases h with hkept | hnone
  · exact Or.inl (hmoved.kept hkept)
  · exact Or.inr ((hmoved.names (.linked id) rfl hlinked).1.trans hnone)

omit [DecidableEq P] in
theorem Unlinked.rely (h : Unlinked id s) (hrely : Rely id op s t) : Unlinked id t := by
  rcases h with hkept | hnone
  · exact Or.inl (hrely.kept hkept)
  · exact Or.inr ((hrely.names (.linked id) rfl).1.trans hnone)

structure Committed (id : ℕ) (op : Op P) (staged : Name P) (target : P) (s : Store P) (ok : Bool)
    (t : Store P) : Prop where
  moved : Moved id op (fun _ => True) s t
  unlinked : Unlinked id t
  installed : ok = true → ∃ data, s.disk.read staged = some data ∧
    t.by id = ⟨id, target, some data, false⟩ :: s.by id
  failed : ok = false → t.by id = s.by id ∧ Same s t staged

variable {staged : Name P} {key : ContentKey}

omit [DecidableEq P] in
theorem Committed.after {touched : Name P → Prop} {ok : Bool}
    (h : Committed id op staged target t ok u) (hmoved : Moved id op touched s t)
    (hown : Owns id op staged) (hstaged : ¬touched staged) (hby : t.by id = s.by id) :
    Committed id op staged target s ok u := by
  have hsame := hmoved.names staged hown hstaged
  refine ⟨(hmoved.mono fun _ _ => trivial).trans h.moved, h.unlinked, ?_, ?_⟩
  · intro hok
    obtain ⟨data, hread, hwrites⟩ := h.installed hok
    exact ⟨data, hsame.read.symm.trans hread, by rw [hwrites, hby]⟩
  · intro hok
    exact ⟨(h.failed hok).1.trans hby, hsame.trans (h.failed hok).2⟩

omit [DecidableEq P] in
theorem Committed.afterRely {ok : Bool} (h : Committed id op staged target t ok u)
    (hrely : Rely id op s t) (hown : Owns id op staged) :
    Committed id op staged target s ok u :=
  @Committed.after P s t u id op target staged (fun _ => False) ok h hrely.moved hown
    (fun hfalse => hfalse) hrely.writes

theorem sound_installStaged (hown : Owns id op staged) (hfresh : Fresh staged)
    (hne : staged ≠ .copy id) (htarget : op.target = some target)
    (hread : s.disk.read staged = some data) (hunlinked : Unlinked id s) :
    Call.Sound hash strict id op (Committed id op staged target s)
      (installStaged id key staged target) s := by
  have h : Installs op .commit staged target data s :=
    ⟨hread, fun _ => htarget, (fun hkind => by cases hkind), (fun hkind => by cases hkind)⟩
  have hlinked : ¬(Name.linked id = staged ∨ (Name.linked id : Name P) = .copy id) := by
    rintro (heq | heq)
    · exact hfresh.ne_linked id heq.symm
    · cases heq
  refine Sound.bind (sound_safeRename hown hne h) ?_
  intro renamed t ht
  have hleft := hunlinked.moved ht.moved hlinked
  have hall := ht.moved.mono fun _ _ => trivial
  cases renamed with
  | false =>
    refine ⟨hall, hleft, (fun hok => by cases hok), fun _ => ⟨(ht.failed rfl).1, ?_⟩⟩
    exact (ht.failed rfl).2.names staged hown hne
  | true =>
    refine sound_asks trivial ?_
    intro _ u hrely
    refine ⟨hall.trans hrely.moved, hleft.rely hrely, ?_,
      (fun hok => by cases hok)⟩
    intro _
    exact ⟨data, hread, by rw [hrely.writes, ht.installed rfl]; rfl⟩

theorem sound_installLinked (hown : Owns id op staged) (hfresh : Fresh staged)
    (hne : staged ≠ .copy id) (htarget : op.target = some target)
    (hread : s.disk.read staged = some data) (hlinked : s.disk.read (.linked id) = some data) :
    Call.Sound hash strict id op (Committed id op staged target s)
      (installLinked id key staged target) s := by
  have h : Installs op .commit (.linked id) target data s :=
    ⟨hlinked, fun _ => htarget, (fun hkind => by cases hkind), (fun hkind => by cases hkind)⟩
  have hstaged : ¬(staged = .linked id ∨ staged = .copy id) := by
    rintro (heq | heq)
    · exact hfresh.ne_linked id heq
    · exact hne heq
  have hmine : Owns id op (.linked id) := rfl
  refine Sound.bind (sound_safeRename hmine (by intro heq; cases heq) h) ?_
  intro renamed t ht
  refine sound_remove hmine ?_
  intro _ u hremoved hby hgone
  have hleft : Unlinked id u := hgone.symm
  have hmoved : Moved id op (fun _ => True) s u :=
    (ht.moved.mono fun _ _ => trivial).trans (hremoved.mono fun _ _ => trivial)
  cases renamed with
  | false =>
    refine ⟨hmoved, hleft, (fun hok => by cases hok), fun _ => ⟨?_, ?_⟩⟩
    · exact hby.trans (ht.failed rfl).1
    · exact (ht.moved.names staged hown hstaged).trans
        (hremoved.names staged hown fun heq => hstaged (Or.inl heq))
  | true =>
    refine sound_remove hown ?_
    intro _ v hremoved' hby' _
    refine sound_asks trivial ?_
    intro _ w hrely
    have hleft' := hleft.moved hremoved' (hfresh.ne_linked id).symm
    refine ⟨(hmoved.trans (hremoved'.mono fun _ _ => trivial)).trans hrely.moved,
      hleft'.rely hrely, ?_, (fun hok => by cases hok)⟩
    intro _
    refine ⟨data, hread, ?_⟩
    rw [hrely.writes, hby', hby, ht.installed rfl]
    rfl

omit [DecidableEq P] in
theorem read_of_fingerprint {name : Name P} (h : fingerprintOf hash s.disk name = some key) :
    ∃ data, s.disk.read name = some data ∧ key.digest = hash.sum data := by
  obtain ⟨i, hi, rfl⟩ := Option.map_eq_some_iff.mp h
  refine ⟨s.disk.bytes i, ?_, rfl⟩
  unfold Inodes.read
  rw [hi]
  rfl

omit [DecidableEq P] in
theorem read_of_same_digest {name : Name P} (h : fingerprintOf hash s.disk name = some key)
    (hdata : key.digest = hash.sum data) : s.disk.read name = some data := by
  obtain ⟨found, hread, hdigest⟩ := read_of_fingerprint h
  rw [hread, hash.injective found data (hdigest.symm.trans hdata)]

theorem sound_commitLocked (hown : Owns id op staged) (hfresh : Fresh staged)
    (hne : staged ≠ .copy id) (htarget : op.target = some target)
    (hread : s.disk.read staged = some data) (hdigest : key.digest = hash.sum data)
    (hunlinked : Unlinked id s) :
    Call.Sound hash strict id op (Committed id op staged target s)
      (commitLocked id key staged target) s := by
  have hstaged : staged ≠ .linked id := hfresh.ne_linked id
  refine sound_asks trivial ?_
  intro hint t hrely
  have ht : t.disk.read staged = some data := (hrely.names staged hown).read.trans hread
  have hleft : Unlinked id t := hunlinked.rely hrely
  cases hint with
  | none =>
    exact (sound_installStaged hown hfresh hne htarget ht hleft).mono
      fun ok u hu => hu.afterRely hrely hown
  | some candidate =>
    refine sound_link ?_
    intro linked u hmoved hby hfailed
    cases linked with
    | false =>
      have hrely' := hrely.trans (hfailed rfl)
      have hu : u.disk.read staged = some data := (hrely'.names staged hown).read.trans hread
      have hleft' : Unlinked id u :=
        hunlinked.rely hrely'
      exact (sound_installStaged hown hfresh hne htarget hu hleft').mono
        fun ok v hv => hv.afterRely hrely' hown
    | true =>
      rw [if_neg (by decide)]
      have hmoved' : Moved id op (· = .linked id) s u := hrely.moved.trans hmoved
      have hby' : u.by id = s.by id := hby.trans hrely.writes
      refine sound_quiet (fun (x : Option ContentKey) v =>
        x = none ∨ x = fingerprintOf hash v.disk (.linked id)) serve_fingerprint ?_
      intro actual v hrely' hactual
      have hmoved'' : Moved id op (· = .linked id) s v := hmoved'.trans hrely'.moved
      have hby'' : v.by id = s.by id := hrely'.writes.trans hby'
      have hv : v.disk.read staged = some data :=
        (hmoved''.names staged hown hstaged).read.trans hread
      split_ifs with hsame
      · have hfound : fingerprintOf hash v.disk (.linked id) = some key := by
          rcases hactual with hnone | hfound
          · rw [hsame] at hnone
            cases hnone
          · exact hfound.symm.trans hsame
        exact (sound_installLinked hown hfresh hne htarget hv
          (read_of_same_digest hfound hdigest)).mono
          fun ok w hw => hw.after hmoved'' hown hstaged hby''
      · refine sound_remove (show Owns id op (.linked id) from rfl) ?_
        intro _ w hremoved hbyw hgone
        have hmovedw := hmoved''.trans hremoved
        have hw : w.disk.read staged = some data :=
          (hmovedw.names staged hown hstaged).read.trans hread
        exact (sound_installStaged hown hfresh hne htarget hw hgone.symm).mono
          fun ok z hz => hz.after hmovedw hown hstaged (hbyw.trans hby'')

theorem sound_commit (hown : Owns id op staged) (hfresh : Fresh staged) (hne : staged ≠ .copy id)
    (htarget : op.target = some target) (hunlinked : Unlinked id s) :
    Call.Sound hash strict id op (Committed id op staged target s) (commit id staged target) s := by
  have hfailed : ∀ {t}, Rely id op s t → Committed id op staged target s false t := by
    intro t hrely
    exact ⟨hrely.moved, hunlinked.rely hrely,
      (fun hok => by cases hok), fun _ => ⟨hrely.writes, hrely.names staged hown⟩⟩
  refine sound_quiet (fun (x : Option ContentKey) t =>
    x = none ∨ x = fingerprintOf hash t.disk staged) serve_fingerprint ?_
  intro found t hrely hfound
  cases found with
  | none => exact hfailed hrely
  | some key =>
    have hkey : fingerprintOf hash t.disk staged = some key :=
      (hfound.resolve_left (by intro heq; cases heq)).symm
    obtain ⟨data, hread, hdigest⟩ := read_of_fingerprint hkey
    refine sound_asks trivial ?_
    intro made u hrely'
    split_ifs
    · exact hfailed (hrely.trans hrely')
    · refine sound_asks trivial ?_
      intro _ v hrely''
      have hall := hrely.trans (hrely'.trans hrely'')
      have hv : v.disk.read staged = some data :=
        ((hrely'.trans hrely'').names staged hown).read.trans hread
      have hleft : Unlinked id v :=
        hunlinked.rely hall
      refine Sound.bind (sound_commitLocked hown hfresh hne htarget hv hdigest hleft) ?_
      intro ok w hw
      refine sound_asks trivial ?_
      intro _ z hlast
      have hz := hw.afterRely hall hown
      refine ⟨hz.moved.trans hlast.moved,
        hz.unlinked.rely hlast, ?_, ?_⟩
      · intro hok
        obtain ⟨data', hread', hby⟩ := hz.installed hok
        exact ⟨data', hread', hlast.writes.trans hby⟩
      · intro hok
        obtain ⟨hby, hsame⟩ := hz.failed hok
        exact ⟨hlast.writes.trans hby, hsame.trans (hlast.names staged hown)⟩

structure Wrote (id : ℕ) (op : Op P) (w : Write P) (s : Store P) (ok : Bool) (t : Store P) :
    Prop where
  moved : Moved id op (fun _ => True) s t
  unlinked : Unlinked id t
  writes : t.by id = if ok then w :: s.by id else s.by id

omit [DecidableEq P] in
theorem Wrote.after {touched : Name P → Prop} {w : Write P} {ok : Bool} (h : Wrote id op w t ok u)
    (hmoved : Moved id op touched s t) (hby : t.by id = s.by id) : Wrote id op w s ok u :=
  ⟨(hmoved.mono fun _ _ => trivial).trans h.moved, h.unlinked, by rw [h.writes, hby]⟩

omit [DecidableEq P] in
theorem Wrote.afterRely {w : Write P} {ok : Bool} (h : Wrote id op w t ok u)
    (hrely : Rely id op s t) : Wrote id op w s ok u :=
  ⟨hrely.moved.trans h.moved, h.unlinked, by rw [h.writes, hrely.writes]⟩

theorem sound_stageAndCommit {path : P} {mode : ℕ} (htarget : op.target = some path)
    (hunlinked : Unlinked id s) :
    Call.Sound hash strict id op (Wrote id op ⟨id, path, some data, false⟩ s)
      (stageAndCommit id path data mode) s := by
  have hown : Owns id op (.content id) := rfl
  have hlinked : ¬(Name.linked id : Name P) = .content id := by
    intro heq
    cases heq
  refine sound_create hown ?_
  intro created t hmoved hby hopen
  have hleft := hunlinked.moved hmoved hlinked
  cases created with
  | false => exact ⟨hmoved.mono fun _ _ => trivial, hleft, hby⟩
  | true =>
    refine sound_write hown trivial (hopen rfl) ?_
    intro written u hmoved' hby' hread
    have hmoved'' := hmoved.trans hmoved'
    have hwrites := hby'.trans hby
    have hleft' := hleft.moved hmoved' hlinked
    cases written with
    | false => exact ⟨hmoved''.mono fun _ _ => trivial, hleft', hwrites⟩
    | true =>
      refine (sound_commit hown trivial (by intro heq; cases heq) htarget hleft').mono ?_
      intro ok v hv
      refine Wrote.after ⟨hv.moved, hv.unlinked, ?_⟩ hmoved'' hwrites
      cases ok with
      | false => exact (hv.failed rfl).1
      | true =>
        obtain ⟨found, hfound, hv'⟩ := hv.installed rfl
        rw [hread rfl] at hfound
        cases hfound
        exact hv'

theorem sound_writeFile {path : P} {mode : ℕ} (htarget : op.target = some path)
    (hunlinked : Unlinked id s) :
    Call.Sound hash strict id op (Wrote id op ⟨id, path, some data, false⟩ s)
      (writeFile id path data mode) s := by
  refine sound_asks trivial ?_
  intro made t hrely
  split_ifs
  · exact ⟨hrely.moved, hunlinked.rely hrely, hrely.writes⟩
  · refine Sound.bind (sound_stageAndCommit htarget (hunlinked.rely hrely)) ?_
    intro ok u hu
    refine sound_remove (show Owns id op (.content id) from rfl) ?_
    intro _ v hremoved hby _
    have hu' := hu.afterRely hrely
    refine ⟨hu'.moved.trans (hremoved.mono fun _ _ => trivial), ?_, hby.trans hu'.writes⟩
    exact hu'.unlinked.moved hremoved (by intro heq; cases heq)

structure WroteNothing (id : ℕ) (op : Op P) (s t : Store P) : Prop where
  moved : Moved id op (fun _ => True) s t
  unlinked : Unlinked id t
  writes : t.by id = s.by id

omit [DecidableEq P] in
theorem WroteNothing.afterRely (h : WroteNothing id op t u) (hrely : Rely id op s t) :
    WroteNothing id op s u :=
  ⟨hrely.moved.trans h.moved, h.unlinked, h.writes.trans hrely.writes⟩

omit [DecidableEq P] in
theorem WroteNothing.rely (h : WroteNothing id op s t) (hrely : Rely id op t u) :
    WroteNothing id op s u :=
  ⟨h.moved.trans hrely.moved, h.unlinked.rely hrely, hrely.writes.trans h.writes⟩

theorem sound_reuseLinked (hop : op = .reuseExisting target)
    (hread : s.disk.read (.path target) = some data) (hdigest : key.digest = hash.sum data) :
    Call.Sound hash strict id op
      (fun _ t => Moved id op (fun _ => True) s t ∧ t.by id = s.by id)
      (reuseLinked id key target) s := by
  refine sound_quiet (fun (x : Option ContentKey) t =>
    x = none ∨ x = fingerprintOf hash t.disk (.linked id)) serve_fingerprint ?_
  intro actual t hrely hactual
  cases actual with
  | none => exact ⟨hrely.moved, hrely.writes⟩
  | some found =>
    dsimp only
    split_ifs with hsame
    · have hfound : fingerprintOf hash t.disk (.linked id) = some key := by
        rw [← hsame]
        exact (hactual.resolve_left (by intro heq; cases heq)).symm
      have htarget : t.disk.read (.path target) = some data := (hrely.target target hop).trans hread
      have h : Installs op .reuse (.linked id) target data t :=
        ⟨read_of_same_digest hfound hdigest, fun hkind => absurd rfl hkind,
          (fun hkind => by cases hkind), fun _ => ⟨hop, htarget⟩⟩
      refine Sound.bind (sound_safeRename (show Owns id op (.linked id) from rfl)
        (by intro heq; cases heq) h) ?_
      intro renamed u hu
      have hmoved : Moved id op (fun _ => True) s u :=
        hrely.moved.trans (hu.moved.mono fun _ _ => trivial)
      cases renamed with
      | false => exact ⟨hmoved, (hu.failed rfl).1.trans hrely.writes⟩
      | true =>
        refine sound_asks trivial ?_
        intro _ v hrely'
        refine ⟨hmoved.trans hrely'.moved, ?_⟩
        rw [hrely'.writes, hu.installed rfl]
        exact hrely.writes
    · refine sound_asks trivial ?_
      intro _ u hrely'
      have hall := hrely.trans hrely'
      exact ⟨hall.moved, hall.writes⟩

theorem sound_addCandidate {changed : Option Bool} (hunlinked : Unlinked id s) :
    Call.Sound hash strict id op (fun _ t => WroteNothing id op s t)
      (do
        addCandidate key target
        return changed) s := by
  refine sound_asks trivial ?_
  intro _ t hrely
  exact ⟨hrely.moved, hunlinked.rely hrely, hrely.writes⟩

theorem sound_reuseCandidate {candidate : P} (hop : op = .reuseExisting target)
    (hread : s.disk.read (.path target) = some data) (hdigest : key.digest = hash.sum data)
    (hunlinked : Unlinked id s) :
    Call.Sound hash strict id op (fun _ t => WroteNothing id op s t)
      (reuseCandidate id key target candidate) s := by
  have hquiet : ∀ {t}, Rely id op s t → WroteNothing id op s t :=
    fun hrely => ⟨hrely.moved, hunlinked.rely hrely, hrely.writes⟩
  refine sound_asks trivial ?_
  intro targetInfo t hrely
  cases targetInfo with
  | none => exact hquiet hrely
  | some inode =>
    refine sound_asks trivial ?_
    intro candidateInfo u hrely'
    have hall := hrely.trans hrely'
    split_ifs
    · exact hquiet hall
    · refine sound_link ?_
      intro linked v hmoved hby hfailed
      cases linked with
      | false =>
        have hall' := hall.trans (hfailed rfl)
        exact (sound_addCandidate (hunlinked.rely hall')).mono
          fun _ w hw => hw.afterRely hall'
      | true =>
        have hmoved' : Moved id op (· = .linked id) s v := hall.moved.trans hmoved
        have hby' : v.by id = s.by id := hby.trans hall.writes
        have hv : v.disk.read (.path target) = some data := (hmoved'.target target hop).trans hread
        refine Sound.bind (sound_reuseLinked hop hv hdigest) ?_
        rintro result w ⟨hmovedw, hbyw⟩
        refine sound_remove (show Owns id op (.linked id) from rfl) ?_
        intro _ z hremoved hbyz hgone
        exact ⟨((hmoved'.mono fun _ _ => trivial).trans hmovedw).trans
          (hremoved.mono fun _ _ => trivial), hgone.symm, hbyz.trans (hbyw.trans hby')⟩

theorem sound_reuseExisting (hop : op = .reuseExisting target) (hunlinked : Unlinked id s) :
    Call.Sound hash strict id op (fun _ t => WroteNothing id op s t)
      (reuseExisting id target) s := by
  have hquiet : ∀ {t}, Rely id op s t → WroteNothing id op s t :=
    fun hrely => ⟨hrely.moved, hunlinked.rely hrely, hrely.writes⟩
  refine sound_quiet (fun (x : Option ContentKey) t =>
    x = none ∨ x = fingerprintOf hash t.disk (.path target)) serve_fingerprint ?_
  intro found t hrely hfound
  cases found with
  | none => exact hquiet hrely
  | some key =>
    have hkey : fingerprintOf hash t.disk (.path target) = some key :=
      (hfound.resolve_left (by intro heq; cases heq)).symm
    obtain ⟨data, hread, hdigest⟩ := read_of_fingerprint hkey
    refine sound_asks trivial ?_
    intro free u hrely'
    have hall := hrely.trans hrely'
    have hu : u.disk.read (.path target) = some data := (hrely'.target target hop).trans hread
    split_ifs
    · exact hquiet hall
    · refine Sound.bind (show Call.Sound hash strict id op (fun _ v => WroteNothing id op s v)
        (reuseLocked id key target) u from ?_) ?_
      · refine sound_asks trivial ?_
        intro hint v hrely''
        have hall' := hall.trans hrely''
        have hv : v.disk.read (.path target) = some data := (hrely''.target target hop).trans hu
        have hafter : ∀ {w}, WroteNothing id op v w → WroteNothing id op s w :=
          fun hw => hw.afterRely hall'
        cases hint with
        | none =>
          exact (sound_addCandidate (hunlinked.rely hall')).mono fun _ _ hw => hafter hw
        | some candidate =>
          dsimp only
          split_ifs
          · exact (sound_addCandidate (hunlinked.rely hall')).mono fun _ _ hw => hafter hw
          · exact (sound_reuseCandidate hop hv hdigest (hunlinked.rely hall')).mono
              fun _ _ hw => hafter hw
      · intro result v hv
        refine sound_asks trivial ?_
        intro _ w hlast
        exact hv.rely hlast

end RenoP.Artifacts
