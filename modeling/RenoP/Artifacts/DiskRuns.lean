import RenoP.Artifacts.DiskCalls

/-!
# Runs of the content store on disk

Any interleaving of calls: what a path reads, what a call that is over has done, and which files
share an inode.
-/

namespace RenoP.Artifacts

open Process Interleaving

variable {P : Type} [DecidableEq P] {hash : Hash} {strict : Prop} {s t : Store P} {n id : ℕ}
  {op : Op P}

abbrev DiskSystem (P : Type) := System (Request P) Response (Option Bool) (Store P) (Op P)

/-- The target of an installation, and whether it is that of `CommitMutable`. -/
def Op.installs : Op P → Option (P × Bool)
  | .commit _ target | .writeFile target _ _ => some (target, false)
  | .commitMutable _ target => some (target, true)
  | _ => none

/-- What a call that is over has done: `r` is `none` for an error. -/
structure Answered (id : ℕ) (op : Op P) (r : Option Bool) (s : Store P) : Prop where
  installed : ∀ b target m, r = some b → op.installs = some (target, m) →
    ∃ data, s.asked id = some data ∧ s.by id = [⟨id, target, some data, m⟩]
  removed : ∀ b target, r = some b → op = .removeFile target →
    s.by id = [⟨id, target, none, false⟩]
  nothing : op.target = none → s.by id = []
  failed : r = none → s.by id = []
  staged : r = none → ∀ staged target, op = .commit staged target ∨ op = .commitMutable staged target →
    s.disk.read (.staged staged) = s.asked id
  unlinked : id ∉ s.kept → s.disk.names (.linked id) = none

omit [DecidableEq P] in
theorem answered_wrote {r : Option Bool} {target : P} {data : Bytes} {m ok : Bool}
    (hinstalls : op.installs = some (target, m)) (hasked : t.asked id = some data)
    (hunlinked : Unlinked id t) (hr : r = if ok then some true else none)
    (hby : t.by id = if ok then [⟨id, target, some data, m⟩] else [])
    (hstaged : ok = false → ∀ staged target,
      op = .commit staged target ∨ op = .commitMutable staged target →
        t.disk.read (.staged staged) = t.asked id) : Answered id op r t := by
  constructor
  · intro b target' m' hsome hinstalls'
    cases hinstalls.symm.trans hinstalls'
    cases ok with
    | true => exact ⟨data, hasked, hby⟩
    | false => cases hr.symm.trans hsome
  · rintro b target' - rfl
    cases hinstalls
  · intro hnone
    cases op <;> cases hinstalls <;> cases hnone
  · intro hnone
    cases ok with
    | true => cases hr.symm.trans hnone
    | false => exact hby
  · intro hnone
    cases ok with
    | true => cases hr.symm.trans hnone
    | false => exact hstaged rfl
  · exact fun hkept => hunlinked.resolve_left hkept

omit [DecidableEq P] in
theorem answered_nothing {r : Option Bool} (htarget : op.target = none)
    (hby : t.by id = []) (hunlinked : Unlinked id t) : Answered id op r t := by
  constructor
  · intro b target m _ hinstalls
    cases op <;> cases hinstalls <;> cases htarget
  · rintro b target - rfl
    cases htarget
  · exact fun _ => hby
  · exact fun _ => hby
  · rintro - staged target (rfl | rfl) <;> cases htarget
  · exact fun hkept => hunlinked.resolve_left hkept

structure Begun (id : ℕ) (op : Op P) (s : Store P) : Prop where
  asked : s.asked id = op.asks s
  unwritten : s.by id = []
  unlinked : Unlinked id s

theorem sound_body_commit {staged : ℕ} {target : P} (h : Begun id (.commit staged target) s) :
    Call.Sound hash strict id (.commit staged target) (Answered id (.commit staged target))
      (body id (.commit staged target)) s := by
  refine Sound.bind (sound_commit rfl trivial (by intro heq; cases heq) rfl h.unlinked) ?_
  intro ok t ht
  have hasked : t.asked id = s.disk.read (.staged staged) := ht.moved.asked.trans h.asked
  cases ok with
  | true =>
    obtain ⟨data, hread, hby⟩ := ht.installed rfl
    rw [h.unwritten] at hby
    exact answered_wrote rfl (hasked.trans hread) ht.unlinked rfl hby fun hok => by cases hok
  | false =>
    obtain ⟨hby, hsame⟩ := ht.failed rfl
    rw [h.unwritten] at hby
    constructor
    · rintro b target' m hsome -
      cases hsome
    · rintro b target' - heq
      cases heq
    · intro hnone
      cases hnone
    · exact fun _ => hby
    · rintro - staged' target' (heq | heq) <;> cases heq
      exact hsame.read.trans hasked.symm
    · exact fun hkept => ht.unlinked.resolve_left hkept

theorem sound_body_commitMutable {staged : ℕ} {target : P}
    (h : Begun id (.commitMutable staged target) s) :
    Call.Sound hash strict id (.commitMutable staged target)
      (Answered id (.commitMutable staged target)) (body id (.commitMutable staged target)) s := by
  have hown : Owns id (.commitMutable staged target) (.staged staged) := rfl
  have hne : (.staged staged : Name P) ≠ .copy id := by
    intro heq
    cases heq
  have hlinked : ¬((Name.linked id : Name P) = .staged staged ∨
      (Name.linked id : Name P) = .copy id) := by
    rintro (heq | heq) <;> cases heq
  have hfailed : ∀ {t : Store P}, t.by id = [] → t.asked id = s.asked id →
      t.disk.read (.staged staged) = s.disk.read (.staged staged) → Unlinked id t →
      Answered id (.commitMutable staged target) none t := by
    intro t hby hasked hread hunlinked
    constructor
    · rintro b target' m hsome -
      cases hsome
    · rintro b target' - heq
      cases heq
    · intro hnone
      cases hnone
    · exact fun _ => hby
    · rintro - staged' target' (heq | heq) <;> cases heq
      exact hread.trans (hasked.trans h.asked).symm
    · exact fun hkept => hunlinked.resolve_left hkept
  cases hread : s.disk.read (.staged staged) with
  | none =>
    have hnone : s.disk.names (.staged staged) = none := Option.map_eq_none_iff.mp hread
    refine Sound.bind (sound_absent hown hnone) ?_
    rintro ok t ⟨rfl, hrely⟩
    exact hfailed (hrely.writes.trans h.unwritten) hrely.asked (hrely.names _ hown).read
      (h.unlinked.rely hrely)
  | some data =>
    have hinstalls : Installs (.commitMutable staged target) .commitMutable (.staged staged)
        target data s :=
      ⟨hread, fun _ => rfl, fun _ => trivial, fun hkind => by cases hkind⟩
    refine Sound.bind (sound_safeRename hown hne hinstalls) ?_
    intro ok t ht
    have hunlinked : Unlinked id t := h.unlinked.moved ht.moved hlinked
    cases ok with
    | true =>
      have hby := ht.installed rfl
      rw [h.unwritten] at hby
      exact answered_wrote rfl (ht.moved.asked.trans (h.asked.trans hread)) hunlinked rfl hby
        fun hok => by cases hok
    | false =>
      obtain ⟨hby, hmoved⟩ := ht.failed rfl
      exact hfailed (hby.trans h.unwritten) hmoved.asked (hmoved.names _ hown hne).read hunlinked

theorem sound_body_writeFile {path : P} {data : Bytes} {mode : ℕ}
    (h : Begun id (.writeFile path data mode) s) :
    Call.Sound hash strict id (.writeFile path data mode) (Answered id (.writeFile path data mode))
      (body id (.writeFile path data mode)) s := by
  refine Sound.bind (sound_writeFile rfl h.unlinked) ?_
  intro ok t ht
  have hby := ht.writes
  rw [h.unwritten] at hby
  refine answered_wrote rfl (ht.moved.asked.trans h.asked) ht.unlinked rfl hby ?_
  rintro - staged target (heq | heq) <;> cases heq

theorem sound_body_removeFile {path : P} (h : Begun id (.removeFile path) s) :
    Call.Sound hash strict id (.removeFile path) (Answered id (.removeFile path))
      (body id (.removeFile path)) s := by
  refine sound_removePath rfl ?_
  intro ok t hmoved hby
  rw [h.unwritten] at hby
  have hunlinked : Unlinked id t := h.unlinked.moved hmoved fun hfalse => hfalse
  constructor
  · rintro b target m - hinstalls
    cases hinstalls
  · rintro b target hsome heq
    cases heq
    cases ok with
    | true => exact hby
    | false => cases hsome
  · intro hnone
    cases hnone
  · intro hnone
    cases ok with
    | true => cases hnone
    | false => exact hby
  · rintro - staged target (heq | heq) <;> cases heq
  · exact fun hkept => hunlinked.resolve_left hkept

theorem sound_body_stage {staged mode : ℕ} {data : Bytes}
    (h : Begun id (.stage staged data mode) s) :
    Call.Sound hash strict id (.stage staged data mode) (Answered id (.stage staged data mode))
      (body id (.stage staged data mode)) s := by
  have hown : Owns id (.stage staged data mode : Op P) (.staged staged) := rfl
  have hlinked : ¬(Name.linked id : Name P) = .staged staged := by
    intro heq
    cases heq
  refine Sound.bind (show Call.Sound hash strict id (.stage staged data mode)
    (fun _ t => t.by id = [] ∧ Unlinked id t) (stage staged data mode) s from ?_) ?_
  · refine sound_create hown ?_
    intro created t hmoved hby hopen
    have hleft := h.unlinked.moved hmoved hlinked
    cases created with
    | false => exact ⟨hby.trans h.unwritten, hleft⟩
    | true =>
      refine sound_write hown trivial (hopen rfl) ?_
      intro written u hmoved' hby' _
      exact ⟨hby'.trans (hby.trans h.unwritten), hleft.moved hmoved' hlinked⟩
  · rintro ok t ⟨hby, hunlinked⟩
    exact answered_nothing rfl hby hunlinked

theorem sound_body_discard {staged : ℕ} (h : Begun id (.discard staged : Op P) s) :
    Call.Sound hash strict id (.discard staged) (Answered id (.discard staged))
      (body id (.discard staged)) s := by
  refine sound_remove (show Owns id (.discard staged : Op P) (.staged staged) from rfl) ?_
  intro ok t hmoved hby _
  exact answered_nothing rfl (hby.trans h.unwritten)
    (h.unlinked.moved hmoved (by intro heq; cases heq))

theorem sound_body_reuseExisting {target : P} (h : Begun id (.reuseExisting target) s) :
    Call.Sound hash strict id (.reuseExisting target) (Answered id (.reuseExisting target))
      (body id (.reuseExisting target)) s := by
  refine (sound_reuseExisting rfl h.unlinked).mono ?_
  intro r t ht
  exact answered_nothing rfl (ht.writes.trans h.unwritten) ht.unlinked

theorem sound_body (h : Begun id op s) :
    Call.Sound hash strict id op (Answered id op) (body id op) s := by
  cases op with
  | commit staged target => exact sound_body_commit h
  | writeFile path data mode => exact sound_body_writeFile h
  | reuseExisting target => exact sound_body_reuseExisting h
  | commitMutable staged target => exact sound_body_commitMutable h
  | removeFile path => exact sound_body_removeFile h
  | stage staged data mode => exact sound_body_stage h
  | discard staged => exact sound_body_discard h

omit [DecidableEq P] in
theorem begun (hn : s.by n = []) (hunlinked : s.disk.names (.linked n) = none) :
    Begun n op { s with asked := Function.update s.asked n (op.asks s) } where
  asked := by
    show Function.update s.asked n (op.asks s) n = _
    rw [Function.update_self]
    cases op <;> rfl
  unwritten := hn
  unlinked := Or.inr hunlinked

def outline (hash : Hash) (strict : Prop) : Outline (disk (P := P) hash) where
  inv := Inv strict
  rely := Rely
  guar := Guar
  post := Answered
  fine _ := Fine strict
  compatible := Compatible
  rely_refl _ _ s := Rely.refl s
  rely_trans _ _ _ _ _ h h' := h.trans h'
  begin_inv n op s t hinv h := by
    cases h
    exact ⟨hinv.allocated, fun id hid => hinv.unborn id (Nat.le_of_succ_le hid),
      fun id hid => hinv.unwritten id (Nat.le_of_succ_le hid), hinv.reads, hinv.unshared, hinv.sole⟩
  begin_sound n op s t hinv h := by
    cases h
    exact sound_body (begun (hinv.unwritten n (Nat.le_refl n))
      (hinv.unborn n (Nat.le_refl n) _ (Or.inl rfl)))
  begin_rely n op s t hinv h id op' hid _ := by
    cases h
    exact ⟨fun q _ => Same.refl s q, rfl, Function.update_of_ne (Nat.ne_of_lt hid) _ _,
      fun hkept => hkept, fun _ _ => rfl⟩
  guar_rely id op id' op' s t hne hcompatible h := h.rely hne hcompatible
  restart_inv n s hinv :=
    ⟨hinv.allocated, hinv.unborn, hinv.unwritten, hinv.reads, hinv.unshared, hinv.sole⟩

structure Initial (s : Store P) : Prop where
  allocated : s.disk.Allocated
  paths : ∀ q i, s.disk.names q = some i → ∃ p, q = .path p
  initial : ∀ p, s.initial p = s.disk.read (.path p)
  writes : s.writes = []

def Exclusive (y : DiskSystem P) : Event Choice (Op P) → Prop
  | .start op => ∀ e ∈ y.threads.entries, Compatible op e.2.1 ∧ Compatible e.2.1 op
  | _ => True

/-- A step links to no file of `CommitMutable`, nor puts under its path a link that is not alone
with its inode. -/
def SparesMutable (y : DiskSystem P) : Event Choice (Op P) → Prop
  | .turn id c => ∀ op r next, y.threads.load id = some (op, .ask r next) → Fine True r c y.store
  | _ => True

structure Faithful (y : DiskSystem P) : Prop where
  reads : ∀ p, y.store.disk.read (.path p) = y.store.contents p
  answered : ∀ f ∈ y.finished, Answered f.id f.op f.result f.store

/-- Files of `CommitMutable` share no inode. -/
def Sole (y : DiskSystem P) : Prop :=
  ∀ p, y.store.lastMutable p = true → y.store.disk.Unshared (.path p)

def Framed (hash : Hash) (y : DiskSystem P) (e : Event Choice (Op P)) : Prop :=
  ∀ p, (y.next (disk hash) e).store.disk.read (.path p) = y.store.disk.read (.path p) ∨
    ∃ id c op call, e = .turn id c ∧ y.threads.load id = some (op, call) ∧ op.target = some p

theorem inv_initial (h : Initial s) : Inv strict 0 s := by
  have hnone : ∀ q, (∀ p, q ≠ .path p) → s.disk.names q = none := by
    intro q hq
    cases hi : s.disk.names q with
    | none => rfl
    | some i =>
      obtain ⟨p, rfl⟩ := h.paths q i hi
      exact absurd rfl (hq p)
  constructor
  · exact h.allocated
  · intro id _ q hq
    apply hnone
    rintro p rfl
    rcases hq with hq | hq | hq <;> cases hq
  · intro id _
    unfold Store.by
    rw [h.writes]
    rfl
  · intro p
    unfold Store.contents Store.last
    rw [h.writes, ← h.initial p]
    rfl
  · exact fun q hq => Inodes.unshared_of_absent (hnone q hq.ne_path)
  · intro _ p hp
    unfold Store.lastMutable Store.last at hp
    rw [h.writes] at hp
    cases hp

theorem Exclusive.permitted {y : DiskSystem P} {e : Event Choice (Op P)} (h : Exclusive y e)
    (hfine : strict → SparesMutable y e) : Permitted (outline hash strict) y e := by
  cases e with
  | start op =>
    intro id op' p hload
    exact h ⟨id, (op', p)⟩ ((GoMap.mem_entries_iff y.threads id (op', p)).mpr hload)
  | restart => exact trivial
  | turn id c =>
    intro op r next hload
    show Fine strict r c y.store
    have hstep := fun hstrict => hfine hstrict op r next hload
    unfold Fine at hstep ⊢
    split
    · exact fun hstrict => hstep hstrict trivial
    · exact fun hstrict => hstep hstrict trivial
    · exact trivial

theorem framed_of_kept {y : DiskSystem P} {e : Event Choice (Op P)}
    (hk : Kept (outline hash strict) y) (hpermitted : Permitted (outline hash strict) y e) :
    Framed hash y e := by
  intro p
  cases e with
  | start op =>
    left
    unfold System.next disk begin
    dsimp only
    cases body y.count op <;> rfl
  | restart => exact Or.inl rfl
  | turn id c =>
    rcases hk.turn_guar hpermitted with hsame | ⟨op, call, hload, hguar⟩
    · rw [hsame]
      exact Or.inl rfl
    · by_cases htarget : op.target = some p
      · exact Or.inr ⟨id, c, op, call, rfl, hload, htarget⟩
      · exact Or.inl (hguar.paths p htarget)

/-- What every interleaving of calls keeps, and what it keeps of files of `CommitMutable` where
its steps spare them. -/
theorem disk_contents_kept (hash : Hash) {store : Store P} (h : Initial store)
    {events : List (Event Choice (Op P))}
    (hexclusive : Runs.Along (System.next (disk hash)) Exclusive (System.initial store) events) :
    Runs.Through (System.next (disk hash)) Faithful (System.initial store) events ∧
      Runs.Along (System.next (disk hash)) (Framed hash) (System.initial store) events ∧
      (Runs.Along (System.next (disk hash)) SparesMutable (System.initial store) events →
        Runs.Through (System.next (disk hash)) Sole (System.initial store) events) := by
  have hpermitted : Runs.Along (System.next (disk hash)) (Permitted (outline hash False))
      (System.initial store) events :=
    hexclusive.mono fun y e he => he.permitted fun hfalse => hfalse.elim
  have hkept : Runs.Through (System.next (disk hash)) (Kept (outline hash False))
      (System.initial store) events := kept_run (outline hash False) (inv_initial h) hpermitted
  have hframed : ∀ (y : DiskSystem P) e, Kept (outline hash False) y →
      Permitted (outline hash False) y e → Framed hash y e := fun y e hk hp => framed_of_kept hk hp
  refine ⟨hkept.mono ?_, Runs.Along.of_through hframed hkept hpermitted, ?_⟩
  · exact fun y hk => ⟨hk.inv.reads, hk.finished⟩
  · intro hspares
    have hstrict : Runs.Along (System.next (disk hash)) (Permitted (outline hash True))
        (System.initial store) events :=
      (hexclusive.and hspares).mono fun y e he => he.1.permitted fun _ => he.2
    exact (kept_run (outline hash True) (inv_initial h) hstrict).mono
      fun y hk => hk.inv.sole trivial

def plainHash : Hash := ⟨fun data => data, fun _ _ h => h⟩

def emptyStore : Store ℕ where
  disk := ⟨fun _ => none, fun _ => [], fun _ => 0, 0⟩
  hints _ := ∅
  locked _ := false
  initial _ := none
  asked _ := none
  writes := []
  kept := []

theorem emptyStore_initial : Initial emptyStore where
  allocated := by
    intro q i hq
    cases hq
  paths := by
    intro q i hq
    cases hq
  initial _ := rfl
  writes := rfl

def performs (op : Op ℕ) (id steps : ℕ) : List (Event Choice (Op ℕ)) :=
  .start op :: List.replicate steps (.turn id .ok)

def sharedMutable : List (Event Choice (Op ℕ)) :=
  performs (.stage 0 [1] 420) 0 2 ++ performs (.commit 0 10) 1 8 ++
    performs (.stage 1 [1] 420) 2 2 ++ performs (.commitMutable 1 10) 3 2 ++
    performs (.stage 2 [1] 420) 4 2 ++ performs (.commit 2 11) 5 12

instance decidableCompatible (op op' : Op ℕ) : Decidable (Compatible op op') :=
  inferInstanceAs (Decidable ((op.slot = none ∨ op.slot ≠ op'.slot) ∧
    (op'.reuses = none ∨ op.target ≠ op'.reuses)))

instance decidableExclusive (y : DiskSystem ℕ) : ∀ e, Decidable (Exclusive y e)
  | .start op => inferInstanceAs (Decidable (∀ e ∈ y.threads.entries,
      Compatible op e.2.1 ∧ Compatible e.2.1 op))
  | .turn _ _ => instDecidableTrue
  | .restart => instDecidableTrue

theorem sharedMutable_shares :
    Initial emptyStore ∧
      Runs.Along (System.next (disk plainHash)) Exclusive (System.initial emptyStore)
        sharedMutable ∧
      (sharedMutable.foldl (System.next (disk plainHash)) (System.initial emptyStore)).threads.size
        = 0 ∧
      ¬Sole (sharedMutable.foldl (System.next (disk plainHash)) (System.initial emptyStore)) := by
  refine ⟨emptyStore_initial, by decide +kernel, by decide +kernel, ?_⟩
  intro hsole
  have hmutable : (sharedMutable.foldl (System.next (disk plainHash))
      (System.initial emptyStore)).store.lastMutable 10 = true := by decide +kernel
  have hfirst : (sharedMutable.foldl (System.next (disk plainHash))
      (System.initial emptyStore)).store.disk.names (.path 10) = some 1 := by decide +kernel
  have hsecond : (sharedMutable.foldl (System.next (disk plainHash))
      (System.initial emptyStore)).store.disk.names (.path 11) = some 1 := by decide +kernel
  have hsame := hsole 10 hmutable 1 hfirst (.path 11) hsecond
  cases hsame

/-- A turn that neither links nor renames for `ReuseExisting`. -/
def linkless (y : DiskSystem ℕ) : Event Choice (Op ℕ) → Bool
  | .turn id _ =>
    match (y.threads.load id).bind fun e => e.2.pending with
    | some (.link _) => false
    | some (.rename .reuse ..) => false
    | _ => true
  | _ => true

theorem sparesMutable_of_linkless (y : DiskSystem ℕ) (e : Event Choice (Op ℕ))
    (h : linkless y e = true) : SparesMutable y e := by
  cases e with
  | start op => exact trivial
  | restart => exact trivial
  | turn id c =>
    intro op r next hload
    unfold linkless at h
    dsimp only at h
    rw [hload] at h
    unfold Fine
    split
    · cases h
    · cases h
    · exact trivial

def loneMutable : List (Event Choice (Op ℕ)) :=
  performs (.stage 0 [1] 420) 0 2 ++ performs (.commitMutable 0 10) 1 2 ++
    performs (.stage 1 [1] 420) 2 2 ++ performs (.commit 1 11) 3 8

theorem loneMutable_kept :
    Runs.Through (System.next (disk plainHash)) Faithful (System.initial emptyStore)
        loneMutable ∧
      Runs.Along (System.next (disk plainHash)) (Framed plainHash) (System.initial emptyStore)
        loneMutable ∧
      Runs.Through (System.next (disk plainHash)) Sole (System.initial emptyStore)
        loneMutable := by
  have hlinkless : Runs.Along (System.next (disk plainHash)) (fun y e => linkless y e = true)
      (System.initial emptyStore) loneMutable := by
    decide +kernel
  obtain ⟨hfaithful, hframed, hsole⟩ :=
    disk_contents_kept plainHash emptyStore_initial
      (show Runs.Along _ Exclusive _ loneMutable by decide +kernel)
  exact ⟨hfaithful, hframed, hsole (hlinkless.mono sparesMutable_of_linkless)⟩

end RenoP.Artifacts
