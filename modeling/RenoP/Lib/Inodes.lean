import Mathlib.Data.List.Basic

/-!
# Files by name and by handle

A name leads to an inode, an inode holds bytes and permission bits. An open handle is the inode
itself, so it outlives a rename or a removal of the name it was opened by. `P` are the names.
-/

structure Inodes (P : Type) where
  names : P → Option ℕ
  bytes : ℕ → List UInt8
  mode : ℕ → ℕ
  /-- no inode from here on is in use -/
  next : ℕ

namespace Inodes

variable {P : Type} {f : Inodes P} {p q : P} {i j : ℕ}

def Allocated (f : Inodes P) : Prop := ∀ p i, f.names p = some i → i < f.next

def read (f : Inodes P) (p : P) : Option (List UInt8) := (f.names p).map f.bytes

/-- The bytes after `pwrite`; a gap before the offset is filled with zeros. -/
def splice (old : List UInt8) (off : ℕ) (data : List UInt8) : List UInt8 :=
  if data = [] then old
  else old.take off ++ List.replicate (off - old.length) 0 ++ data ++ old.drop (off + data.length)

/-- `file.WriteAt(data, off)` on an open handle. -/
def writeAt (f : Inodes P) (i off : ℕ) (data : List UInt8) : Inodes P :=
  { f with bytes := Function.update f.bytes i (splice (f.bytes i) off data) }

theorem read_eq_some {b : List UInt8} :
    f.read p = some b ↔ ∃ i, f.names p = some i ∧ f.bytes i = b := by
  simp only [read, Option.map_eq_some_iff]

theorem read_writeAt_of_ne (hq : f.names q ≠ some i) (off : ℕ) (data : List UInt8) :
    (f.writeAt i off data).read q = f.read q := by
  unfold read writeAt
  cases hj : f.names q with
  | none => simp only [Option.map_none]
  | some j =>
    have hne : j ≠ i := by
      intro heq
      rw [heq] at hj
      exact hq hj
    simp only [Option.map_some, Function.update_of_ne hne]

theorem read_writeAt (hq : f.names q = some i) (off : ℕ) (data : List UInt8) :
    (f.writeAt i off data).read q = some (splice (f.bytes i) off data) := by
  simp only [read, writeAt, hq, Option.map_some, Function.update_self]

section Names
variable [DecidableEq P]

/-- `os.OpenFile(p, os.O_CREATE|os.O_RDWR, mode)`. -/
def openCreate (f : Inodes P) (p : P) (mode : ℕ) : ℕ × Inodes P :=
  match f.names p with
  | some i => (i, f)
  | none => (f.next, {
      names := Function.update f.names p (some f.next)
      bytes := Function.update f.bytes f.next []
      mode := Function.update f.mode f.next mode
      next := f.next + 1 })

def remove (f : Inodes P) (p : P) : Inodes P :=
  { f with names := Function.update f.names p none }

/-- `os.Link(p, q)`: a second name, refused when `q` exists or `p` does not. -/
def link (f : Inodes P) (p q : P) : Option (Inodes P) :=
  match f.names p, f.names q with
  | some i, none => some { f with names := Function.update f.names q (some i) }
  | _, _ => none

/-- `os.Rename(p, q)`: two names of one inode are left as they are. -/
def rename (f : Inodes P) (p q : P) : Option (Inodes P) :=
  match f.names p with
  | none => none
  | some i =>
    if f.names q = some i then some f
    else some { f with names := Function.update (Function.update f.names q (some i)) p none }

theorem names_openCreate (hpq : q ≠ p) (mode : ℕ) :
    (f.openCreate p mode).2.names q = f.names q := by
  unfold openCreate
  cases f.names p with
  | some i => rfl
  | none => simp only [Function.update_of_ne hpq]

theorem read_openCreate (ha : f.Allocated) {b : List UInt8} (hq : f.read q = some b) (mode : ℕ) :
    (f.openCreate p mode).2.read q = some b := by
  unfold openCreate
  cases hp : f.names p with
  | some i => exact hq
  | none =>
    obtain ⟨j, hj, hb⟩ := read_eq_some.mp hq
    have hpq : q ≠ p := by
      intro heq
      rw [heq, hp] at hj
      cases hj
    have hlt := ha q j hj
    simp only [read, Function.update_of_ne hpq, hj, Option.map_some,
      Function.update_of_ne (Nat.ne_of_lt hlt), hb]

theorem Allocated.openCreate (ha : f.Allocated) (p : P) (mode : ℕ) :
    (f.openCreate p mode).2.Allocated := by
  unfold Inodes.openCreate
  cases hp : f.names p with
  | some i => exact ha
  | none =>
    intro q j hq
    by_cases hpq : q = p
    · rw [hpq] at hq
      simp only [Function.update_self, Option.some.injEq] at hq
      show j < f.next + 1
      omega
    · simp only [Function.update_of_ne hpq] at hq
      have := ha q j hq
      show j < f.next + 1
      omega

theorem read_remove_of_ne (hpq : q ≠ p) : (f.remove p).read q = f.read q := by
  simp only [read, remove, Function.update_of_ne hpq]

theorem Allocated.remove (ha : f.Allocated) (p : P) : (f.remove p).Allocated := by
  intro q j hq
  by_cases hpq : q = p
  · rw [hpq] at hq
    simp only [Inodes.remove, Function.update_self, reduceCtorEq] at hq
  · simp only [Inodes.remove, Function.update_of_ne hpq] at hq
    exact ha q j hq

theorem link_cases {g : Inodes P} (h : f.link p q = some g) :
    ∃ i, f.names p = some i ∧ f.names q = none ∧
      g = { f with names := Function.update f.names q (some i) } := by
  unfold link at h
  cases hp : f.names p with
  | none => simp only [hp, reduceCtorEq] at h
  | some i =>
    cases hq : f.names q with
    | some j => simp only [hp, hq, reduceCtorEq] at h
    | none =>
      simp only [hp, hq, Option.some.injEq] at h
      exact ⟨i, rfl, rfl, h.symm⟩

theorem read_link_of_ne {g : Inodes P} {r : P} (h : f.link p q = some g) (hr : r ≠ q) :
    g.read r = f.read r := by
  obtain ⟨i, _, _, rfl⟩ := link_cases h
  simp only [read, Function.update_of_ne hr]

theorem Allocated.link {g : Inodes P} (ha : f.Allocated) (h : f.link p q = some g) :
    g.Allocated := by
  obtain ⟨i, hp, _, rfl⟩ := link_cases h
  intro r j hr
  by_cases hrq : r = q
  · rw [hrq] at hr
    simp only [Function.update_self, Option.some.injEq] at hr
    rw [← hr]
    exact ha p i hp
  · simp only [Function.update_of_ne hrq] at hr
    exact ha r j hr

theorem rename_cases {g : Inodes P} (h : f.rename p q = some g) :
    ∃ i, f.names p = some i ∧ (f.names q = some i ∧ g = f ∨ f.names q ≠ some i ∧
      g = { f with names := Function.update (Function.update f.names q (some i)) p none }) := by
  unfold rename at h
  cases hp : f.names p with
  | none => simp only [hp, reduceCtorEq] at h
  | some i =>
    simp only [hp] at h
    split_ifs at h with hsame
    · cases h
      exact ⟨i, rfl, Or.inl ⟨hsame, rfl⟩⟩
    · cases h
      exact ⟨i, rfl, Or.inr ⟨hsame, rfl⟩⟩

theorem read_rename {g : Inodes P} (h : f.rename p q = some g) (hpq : q ≠ p) :
    f.read p = g.read q ∧ (g.read q).isSome = true ∧
      ∀ r, r ≠ p → r ≠ q → g.read r = f.read r := by
  obtain ⟨i, hp, ⟨hsame, rfl⟩ | ⟨-, rfl⟩⟩ := rename_cases h
  · refine ⟨?_, ?_, fun r _ _ => rfl⟩
    · simp only [read, hp, hsame]
    · simp only [read, hsame, Option.map_some, Option.isSome_some]
  · refine ⟨?_, ?_, ?_⟩
    · simp only [read, hp, Function.update_of_ne hpq, Function.update_self]
    · simp only [read, Function.update_of_ne hpq, Function.update_self, Option.map_some,
        Option.isSome_some]
    · intro r hrp hrq
      simp only [read, Function.update_of_ne hrp, Function.update_of_ne hrq]

theorem Allocated.rename {g : Inodes P} (ha : f.Allocated) (h : f.rename p q = some g) :
    g.Allocated := by
  obtain ⟨i, hp, ⟨-, rfl⟩ | ⟨-, rfl⟩⟩ := rename_cases h
  · exact ha
  · intro r j hr
    by_cases hrp : r = p
    · rw [hrp] at hr
      simp only [Function.update_self, reduceCtorEq] at hr
    · simp only [Function.update_of_ne hrp] at hr
      by_cases hrq : r = q
      · rw [hrq] at hr
        simp only [Function.update_self, Option.some.injEq] at hr
        rw [← hr]
        exact ha p i hp
      · simp only [Function.update_of_ne hrq] at hr
        exact ha r j hr

def Unshared (f : Inodes P) (p : P) : Prop :=
  ∀ i, f.names p = some i → ∀ q, f.names q = some i → q = p

omit [DecidableEq P] in
theorem unshared_of_absent (h : f.names p = none) : f.Unshared p := by
  intro i hi
  rw [h] at hi
  cases hi

theorem Unshared.remove (h : f.Unshared p) (q : P) : (f.remove q).Unshared p := by
  have hold : ∀ {r j}, (f.remove q).names r = some j → f.names r = some j := by
    intro r j hr
    by_cases hrq : r = q
    · rw [hrq] at hr
      simp only [Inodes.remove, Function.update_self, reduceCtorEq] at hr
    · simp only [Inodes.remove, Function.update_of_ne hrq] at hr
      exact hr
  exact fun i hi r hr => h i (hold hi) r (hold hr)

theorem Unshared.link {g : Inodes P} {r : P} (h : f.Unshared r) (hlink : f.link p q = some g)
    (hp : r ≠ p) (hq : r ≠ q) : g.Unshared r := by
  obtain ⟨i, hpi, -, rfl⟩ := link_cases hlink
  intro j hj r' hr'
  simp only [Function.update_of_ne hq] at hj
  by_cases hrq : r' = q
  · rw [hrq] at hr'
    simp only [Function.update_self, Option.some.injEq] at hr'
    rw [hr'] at hpi
    exact absurd (h j hj p hpi) (Ne.symm hp)
  · simp only [Function.update_of_ne hrq] at hr'
    exact h j hj r' hr'

theorem Unshared.rename {g : Inodes P} {r : P} (h : f.Unshared r) (hrename : f.rename p q = some g)
    (hp : r ≠ p) (hq : r ≠ q) : g.Unshared r := by
  obtain ⟨i, hpi, ⟨-, rfl⟩ | ⟨-, rfl⟩⟩ := rename_cases hrename
  · exact h
  · intro j hj r' hr'
    simp only [Function.update_of_ne hp, Function.update_of_ne hq] at hj
    by_cases hrp : r' = p
    · rw [hrp] at hr'
      simp only [Function.update_self, reduceCtorEq] at hr'
    · simp only [Function.update_of_ne hrp] at hr'
      by_cases hrq : r' = q
      · rw [hrq] at hr'
        simp only [Function.update_self, Option.some.injEq] at hr'
        rw [hr'] at hpi
        exact absurd (h j hj p hpi) (Ne.symm hp)
      · simp only [Function.update_of_ne hrq] at hr'
        exact h j hj r' hr'

theorem Unshared.rename_target {g : Inodes P} (h : f.Unshared p)
    (hrename : f.rename p q = some g) (hpq : q ≠ p) : g.Unshared q := by
  obtain ⟨i, hpi, ⟨hsame, -⟩ | ⟨-, rfl⟩⟩ := rename_cases hrename
  · exact absurd (h i hpi q hsame) hpq
  · intro j hj r' hr'
    simp only [Function.update_of_ne hpq, Function.update_self, Option.some.injEq] at hj
    by_cases hrp : r' = p
    · rw [hrp] at hr'
      simp only [Function.update_self, reduceCtorEq] at hr'
    · by_contra hrq
      simp only [Function.update_of_ne hrp, Function.update_of_ne hrq] at hr'
      rw [← hj] at hr'
      exact hrp (h i hpi r' hr')

theorem unshared_openCreate (ha : f.Allocated) (hp : f.names p = none) (mode : ℕ) :
    (f.openCreate p mode).2.Unshared p := by
  unfold openCreate
  rw [hp]
  intro i hi q hq
  simp only [Function.update_self, Option.some.injEq] at hi
  by_contra hqp
  simp only [Function.update_of_ne hqp] at hq
  have hlt := ha q i hq
  omega

theorem Unshared.openCreate (h : f.Unshared q) (ha : f.Allocated) (hp : f.names p = none)
    (mode : ℕ) : (f.openCreate p mode).2.Unshared q := by
  by_cases hqp : q = p
  · rw [hqp]
    exact unshared_openCreate ha hp mode
  · unfold Inodes.openCreate
    rw [hp]
    intro i hi r hr
    simp only [Function.update_of_ne hqp] at hi
    by_cases hrp : r = p
    · rw [hrp] at hr
      simp only [Function.update_self, Option.some.injEq] at hr
      have hlt := ha q i hi
      omega
    · simp only [Function.update_of_ne hrp] at hr
      exact h i hi r hr

end Names

end Inodes
