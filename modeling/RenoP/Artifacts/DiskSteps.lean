import RenoP.Artifacts.Disk

/-!
# Steps of the content store on disk

What holds of the disk whatever calls run, what a call may rely on and what each of its steps
guarantees to the others.
-/

namespace RenoP.Artifacts

open Process

variable {P : Type} {hash : Hash} {s t u : Store P} {n id : ℕ} {op : Op P}

def Op.slot : Op P → Option ℕ
  | .commit staged _ | .commitMutable staged _ | .stage staged _ _ | .discard staged => some staged
  | _ => none

def Op.target : Op P → Option P
  | .commit _ target | .writeFile target _ _ | .commitMutable _ target | .removeFile target =>
    some target
  | _ => none

def Owns (id : ℕ) (op : Op P) : Name P → Prop
  | .path _ => False
  | .staged n => op.slot = some n
  | .linked j | .content j | .copy j => j = id

def Fresh : Name P → Prop
  | .staged _ | .content _ | .copy _ => True
  | _ => False

theorem Owns.ne_path {q : Name P} (h : Owns id op q) (p : P) : q ≠ .path p := by
  rintro rfl
  exact h

theorem Fresh.ne_path {q : Name P} (h : Fresh q) (p : P) : q ≠ .path p := by
  rintro rfl
  exact h

theorem Fresh.ne_linked {q : Name P} (h : Fresh q) (j : ℕ) : q ≠ .linked j := by
  rintro rfl
  exact h

def Store.by (s : Store P) (id : ℕ) : List (Write P) := s.writes.filter fun w => w.id = id

def Same (s t : Store P) (q : Name P) : Prop :=
  t.disk.names q = s.disk.names q ∧
    ∀ i, s.disk.names q = some i → t.disk.bytes i = s.disk.bytes i

structure Rely (id : ℕ) (op : Op P) (s t : Store P) : Prop where
  names : ∀ q, Owns id op q → Same s t q
  writes : t.by id = s.by id
  asked : t.asked id = s.asked id
  kept : id ∈ s.kept → id ∈ t.kept
  target : ∀ p, op = .reuseExisting p → t.disk.read (.path p) = s.disk.read (.path p)

structure Guar (id : ℕ) (op : Op P) (s t : Store P) : Prop where
  names : ∀ q, ¬Owns id op q → (∀ p, q ≠ .path p) → t.disk.names q = s.disk.names q
  bytes : ∀ q i, ¬Owns id op q → s.disk.names q = some i → t.disk.bytes i = s.disk.bytes i
  writes : ∀ id', id' ≠ id → t.by id' = s.by id'
  asked : t.asked = s.asked
  kept : ∀ id', id' ∈ s.kept → id' ∈ t.kept
  paths : ∀ p, op.target ≠ some p → t.disk.read (.path p) = s.disk.read (.path p)

def Op.reuses : Op P → Option P
  | .reuseExisting target => some target
  | _ => none

/-- Calls that use the same staged file exclude each other, and nothing is written to the target
of `ReuseExisting`. -/
def Compatible (op op' : Op P) : Prop :=
  (op.slot = none ∨ op.slot ≠ op'.slot) ∧ (op'.reuses = none ∨ op.target ≠ op'.reuses)

/-- What a call has done to the names that are its own, `touched` apart. -/
structure Moved (id : ℕ) (op : Op P) (touched : Name P → Prop) (s t : Store P) : Prop where
  names : ∀ q, Owns id op q → ¬touched q → Same s t q
  asked : t.asked id = s.asked id
  kept : id ∈ s.kept → id ∈ t.kept
  target : ∀ p, op = .reuseExisting p → t.disk.read (.path p) = s.disk.read (.path p)

theorem Same.refl (s : Store P) (q : Name P) : Same s s q := ⟨rfl, fun _ _ => rfl⟩

theorem Same.trans {q : Name P} (h : Same s t q) (h' : Same t u q) : Same s u q :=
  ⟨h'.1.trans h.1, fun i hi => (h'.2 i (h.1.trans hi)).trans (h.2 i hi)⟩

theorem Same.read {q : Name P} (h : Same s t q) : t.disk.read q = s.disk.read q := by
  unfold Inodes.read
  rw [h.1]
  cases hq : s.disk.names q with
  | none => rfl
  | some i => rw [Option.map_some, Option.map_some, h.2 i hq]

theorem Rely.refl (s : Store P) : Rely id op s s :=
  ⟨fun q _ => Same.refl s q, rfl, rfl, fun h => h, fun _ _ => rfl⟩

theorem Rely.trans (h : Rely id op s t) (h' : Rely id op t u) : Rely id op s u where
  names q hq := (h.names q hq).trans (h'.names q hq)
  writes := h'.writes.trans h.writes
  asked := h'.asked.trans h.asked
  kept hid := h'.kept (h.kept hid)
  target p hp := (h'.target p hp).trans (h.target p hp)

theorem Rely.moved {touched : Name P → Prop} (h : Rely id op s t) : Moved id op touched s t :=
  ⟨fun q hq _ => h.names q hq, h.asked, h.kept, h.target⟩

theorem Moved.trans {touched : Name P → Prop} (h : Moved id op touched s t)
    (h' : Moved id op touched t u) : Moved id op touched s u where
  names q hq hfree := (h.names q hq hfree).trans (h'.names q hq hfree)
  asked := h'.asked.trans h.asked
  kept hid := h'.kept (h.kept hid)
  target p hp := (h'.target p hp).trans (h.target p hp)

theorem Moved.mono {touched touched' : Name P → Prop} (h : Moved id op touched s t)
    (hmore : ∀ q, touched q → touched' q) : Moved id op touched' s t :=
  ⟨fun q hq hfree => h.names q hq fun hmem => hfree (hmore q hmem), h.asked, h.kept, h.target⟩

theorem Guar.rely {id' : ℕ} {op' : Op P} (h : Guar id op s t) (hne : id ≠ id')
    (hcompatible : Compatible op op') : Rely id' op' s t := by
  have hother : ∀ q, Owns id' op' q → ¬Owns id op q := by
    intro q hq hown
    cases q with
    | path p => exact hq
    | staged n =>
      rcases hcompatible.1 with hnone | hslots
      · cases hnone.symm.trans hown
      · exact hslots (Eq.trans hown (Eq.symm hq))
    | linked j => exact hne (hown.symm.trans hq)
    | content j => exact hne (hown.symm.trans hq)
    | copy j => exact hne (hown.symm.trans hq)
  constructor
  · exact fun q hq => ⟨h.names q (hother q hq) hq.ne_path, fun i hi => h.bytes q i (hother q hq) hi⟩
  · exact h.writes id' (Ne.symm hne)
  · rw [h.asked]
  · exact h.kept id'
  · intro p hp
    subst hp
    exact h.paths p (hcompatible.2.resolve_left (by intro hnone; cases hnone))


variable [DecidableEq P] {strict : Prop}

def Store.last (s : Store P) (p : P) : Option (Write P) := s.writes.find? fun w => w.path = p

def Store.contents (s : Store P) (p : P) : Option Bytes :=
  match s.last p with
  | some w => w.data
  | none => s.initial p

/-- The last installation under a path was that of `CommitMutable`. -/
def Store.lastMutable (s : Store P) (p : P) : Bool := (s.last p).any (·.isMutable)

/-- `strict` asks that files of `CommitMutable` share no inode. -/
structure Inv (strict : Prop) (n : ℕ) (s : Store P) : Prop where
  allocated : s.disk.Allocated
  unborn : ∀ id, n ≤ id → ∀ q, q = .linked id ∨ q = .content id ∨ q = .copy id →
    s.disk.names q = none
  unwritten : ∀ id, n ≤ id → s.by id = []
  reads : ∀ p, s.disk.read (.path p) = s.contents p
  unshared : ∀ q, Fresh q → s.disk.Unshared q
  sole : strict → ∀ p, s.lastMutable p = true → s.disk.Unshared (.path p)

/-- The steps that give the file of `CommitMutable` a second name are not fine. -/
def Fine (strict : Prop) : (r : Request P) → Choice → Store P → Prop
  | .link candidate, .ok, s => strict → s.lastMutable candidate = false
  | .rename .reuse old target, .ok, s =>
    strict → s.lastMutable target = true → s.disk.Unshared old
  | _, _, _ => True

abbrev Call.Sound {α : Type} (hash : Hash) (strict : Prop) (id : ℕ) (op : Op P)
    (post : α → Store P → Prop) (p : Process (Request P) Response α) (s : Store P) : Prop :=
  Process.Sound (serve hash id) (Fine strict) id (Inv strict) (Rely id op) (Guar id op) post p s

structure Quiet (s t : Store P) : Prop where
  disk : t.disk = s.disk
  initial : t.initial = s.initial
  asked : t.asked = s.asked
  writes : t.writes = s.writes
  kept : t.kept = s.kept

omit [DecidableEq P] in
theorem Quiet.refl (s : Store P) : Quiet s s := ⟨rfl, rfl, rfl, rfl, rfl⟩

theorem Quiet.inv (h : Quiet s t) (hinv : Inv strict n s) : Inv strict n t := by
  have hlast : ∀ p, t.last p = s.last p := by
    intro p
    unfold Store.last
    rw [h.writes]
  constructor
  · rw [h.disk]
    exact hinv.allocated
  · rw [h.disk]
    exact hinv.unborn
  · intro id hid
    unfold Store.by
    rw [h.writes]
    exact hinv.unwritten id hid
  · intro p
    rw [h.disk, hinv.reads p]
    unfold Store.contents
    rw [hlast, h.initial]
  · rw [h.disk]
    exact hinv.unshared
  · intro hstrict p hp
    unfold Store.lastMutable at hp
    rw [hlast] at hp
    rw [h.disk]
    exact hinv.sole hstrict p hp

omit [DecidableEq P] in
theorem Quiet.by (h : Quiet s t) (id : ℕ) : t.by id = s.by id := by
  unfold Store.by
  rw [h.writes]

omit [DecidableEq P] in
theorem Quiet.rely (h : Quiet s t) : Rely id op s t := by
  constructor
  · intro q _
    unfold Same
    rw [h.disk]
    exact ⟨rfl, fun _ _ => rfl⟩
  · exact h.by id
  · rw [h.asked]
  · rw [h.kept]
    exact fun hid => hid
  · intro p _
    rw [h.disk]

omit [DecidableEq P] in
theorem Quiet.guar (h : Quiet s t) : Guar id op s t := by
  constructor
  · intro q _ _
    rw [h.disk]
  · intro q i _ _
    rw [h.disk]
  · exact fun id' _ => h.by id'
  · exact h.asked
  · rw [h.kept]
    exact fun _ hid => hid
  · intro p _
    rw [h.disk]

theorem sound_quiet {α : Type} {post : α → Store P → Prop} {r : Request P}
    {f : Response r → Process (Request P) Response α} (info : Response r → Store P → Prop)
    (hserve : ∀ c s t x, serve hash id r c s = some (t, x) → Quiet s t ∧ info x t)
    (hnext : ∀ x t, Rely id op s t → info x t → Call.Sound hash strict id op post (f x) t) :
    Call.Sound hash strict id op post (ask r >>= f) s := by
  refine Sound.step (fun x t => Rely id op s t ∧ info x t) ?_ fun x t h => hnext x t h.1 h.2
  intro n s' _ hinv hrely c t x _ hstep
  obtain ⟨hquiet, hinfo⟩ := hserve c s' t x hstep
  exact ⟨hquiet.inv hinv, hquiet.guar, hrely.trans hquiet.rely, hinfo⟩

end RenoP.Artifacts
