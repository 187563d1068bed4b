import RenoP.Capacity.Bucket

/-!
# Accounts of the writers

What each thread promises about the paths that it has locked, and what the counters of the bucket
say about all threads and the stored data.
-/

namespace RenoP.Capacity

open RenoP.Database (Text)
open GoMap (Moves)

def growths (done : List Measure) : List (Text × ℤ) :=
  done.map fun e => (e.path, max (e.size - e.2) 0)

def changes (done : List Measure) : List (Text × ℤ) := done.map fun e => (e.path, e.size - e.2)

namespace Pc

def activity : Pc → ℤ
  | .stat .. | .grant .. | .held .. => 1
  | _ => 0

/-- The thread has set `loading`. -/
def loads : Pc → ℤ
  | .load .. | .install .. => 1
  | _ => 0

def reserved : Pc → ℤ
  | .held _ _ reserved _ => reserved
  | _ => 0

def growth : Pc → List (Text × ℤ)
  | .held done _ _ _ => growths done
  | _ => []

def change : Pc → List (Text × ℤ)
  | .held done _ _ written => changes (done.filter fun e => written.contains e.path)
  | _ => []

def claims (epoch : ℕ) : Pc → List (Text × ℤ)
  | .stat done _ epoch' _ | .grant done _ epoch' _ =>
    if epoch' = epoch then done.map fun e => (e.path, e.2) else []
  | .held done _ _ _ => done.map fun e => (e.path, max e.2 e.size)
  | _ => []

end Pc

theorem moves_goto (s : System) (thread : ℕ) (pc : Pc) :
    Moves s.threads (s.goto thread pc).threads thread (some pc) :=
  GoMap.moves_store s.threads thread pc

theorem moves_leave (s : System) (thread : ℕ) :
    Moves s.threads (s.leave thread).threads thread none :=
  GoMap.moves_delete s.threads thread

/-- Locked paths, and the counts of active and loading threads and of reserved bytes. -/
structure Books (m : GoMap ℕ Pc) (b : Bucket) : Prop where
  locked : ∀ t pc, m.load t = some pc → ∀ o ∈ pc.objects, b.paths.load o.path = some true
  apart : ∀ t t' pc pc', t ≠ t' → m.load t = some pc → m.load t' = some pc' →
    ∀ o ∈ pc.objects, ∀ o' ∈ pc'.objects, o.path ≠ o'.path
  active : b.active = GoMap.sum (fun _ => Pc.activity) m
  loading : (if b.loading then 1 else 0) = GoMap.sum (fun _ => Pc.loads) m
  measuring : b.loading = true → b.initialized = false ∧ b.active = 0
  reserved : b.reserved = GoMap.sum (fun _ => Pc.reserved) m

/-- What `Reserve` has added up over the objects that it has read. -/
structure Adds (done : List Measure) (m : Measured) : Prop where
  previousTotal : m.previousTotal = (done.map Prod.snd).sum
  delta : m.delta = Ledger.total (changes done)
  reserved : m.reserved = Ledger.total (growths done)
  previousFits : 0 ≤ m.previousTotal ∧ m.previousTotal ≤ maxInt64
  deltaFits : minInt64 ≤ m.delta ∧ m.delta ≤ maxInt64
  reservedFits : 0 ≤ m.reserved ∧ m.reserved ≤ maxInt64

structure View where
  size : Text → ℤ
  acc : Text → ℤ
  epoch : ℕ
  initialized : Bool
  /-- no deletion since the measurement of the account -/
  clean : Prop

/-- A thread that reads sizes: they are no less than the stored ones, and in the epoch in which
the paths were locked the account has them. -/
structure Reads (v : View) (objects : List Object) (done : List Measure) (epoch : ℕ) : Prop where
  valid : validObjects objects = true
  epoch_le : epoch ≤ v.epoch
  initialized : epoch = v.epoch → v.initialized = true
  nonneg : ∀ e ∈ done, 0 ≤ e.2
  size_le : ∀ e ∈ done, v.size e.path ≤ e.2
  le_acc : epoch = v.epoch → ∀ e ∈ done, e.2 ≤ v.acc e.path
  exact_acc : epoch = v.epoch → v.clean → ∀ e ∈ done, e.2 = v.acc e.path

/-- A thread with a reservation: its paths have the size read, or the declared one where they are
written, and less after a deletion. -/
structure Holds (v : View) (done : List Measure) (written : List Text) : Prop where
  valid : validObjects (done.map Prod.fst) = true
  nonneg : ∀ e ∈ done, 0 ≤ e.2
  le_acc : ∀ e ∈ done, e.2 ≤ v.acc e.path
  size_le : ∀ e ∈ done, v.size e.path ≤ if e.path ∈ written then e.size else e.2
  exact_acc : v.initialized = true → v.clean → ∀ e ∈ done, e.2 = v.acc e.path

def PcOk (v : View) : Pc → Prop
  | .ready objects | .lock objects => validObjects objects = true
  | .load objects epoch | .install objects epoch _ => validObjects objects = true ∧ epoch ≤ v.epoch
  | .stat done rest epoch m => Reads v (done.map Prod.fst ++ rest) done epoch ∧ Adds done m
  | .grant done rest epoch result => Reads v (done.map Prod.fst ++ rest) done epoch ∧
    ∀ m, result = some m → rest = [] ∧ Adds done m
  | .held done delta reserved written => Holds v done written ∧
    delta = Ledger.total (changes done) ∧ reserved = Ledger.total (growths done)
  | .deleted => True

def growthAt (m : GoMap ℕ Pc) (path : Text) : ℤ :=
  GoMap.sum (fun _ pc => Ledger.balance pc.growth path) m

def changeAt (m : GoMap ℕ Pc) (path : Text) : ℤ :=
  GoMap.sum (fun _ pc => Ledger.balance pc.change path) m

/-- No deletion awaits its `Invalidate`. -/
def System.quiet (s : System) : Prop := ∀ t, s.threads.load t ≠ some .deleted

def System.view (s : System) (acc : List (Text × ℤ)) (clean : Prop) : View where
  size := s.statSize
  acc := Ledger.balance acc
  epoch := s.bucket.epoch
  initialized := s.bucket.initialized
  clean := clean

structure Snapshot (s : System) (bound : ℤ) (acc : List (Text × ℤ)) (clean : Prop) (epoch : ℕ)
    (used : ℤ) : Prop where
  total : used = Ledger.total acc
  le_bound : used ≤ bound
  nonneg : ∀ path, 0 ≤ Ledger.balance acc path
  size_le : ∀ path, s.statSize path ≤ Ledger.balance acc path
  exact_size : clean → ∀ path, s.statSize path = Ledger.balance acc path
  clean : epoch = s.bucket.epoch → s.quiet → clean

/-- The invariant of the writers of a repository whose data stays within a bound. -/
structure Kept (bound : ℤ) (acc pot : List (Text × ℤ)) (clean : Prop) (s : System) : Prop where
  books : Books s.threads s.bucket
  promises : ∀ t pc, s.threads.load t = some pc → PcOk (s.view acc clean) pc
  snapshot : ∀ t objects epoch used,
    s.threads.load t = some (.install objects epoch (some used)) →
      Snapshot s bound acc clean epoch used
  counted : s.bucket.initialized = true ∨ 0 < s.bucket.active →
    s.bucket.used = Ledger.total acc ∧ s.bucket.used + s.bucket.reserved ≤ bound ∧
      ∀ path, 0 ≤ Ledger.balance acc path
  grown : s.bucket.initialized = true →
    ∀ path, s.statSize path ≤ Ledger.balance acc path + growthAt s.threads path
  exact_used : s.bucket.initialized = true → clean →
    ∀ path, s.statSize path = Ledger.balance acc path + changeAt s.threads path
  cleanly : s.bucket.initialized = true → s.quiet → clean
  pot_total : Ledger.total pot ≤ bound
  covered : ∀ path, s.statSize path ≤ Ledger.balance pot path
  claimed : ∀ t pc, s.threads.load t = some pc → ∀ e ∈ pc.claims s.bucket.epoch,
    e.2 ≤ Ledger.balance pot e.1
  fits : s.overflow = false

end RenoP.Capacity

/-!
## Sums of a reservation

The loop of `Reserve` over the objects: no operation of it overflows, and it adds up what the
objects say.
-/

namespace RenoP.Capacity

open RenoP.Database (Text)

theorem checked_of_fits {x : ℤ} (h : minInt64 ≤ x ∧ x ≤ maxInt64) : checked x = some x :=
  if_pos h

theorem size_le_maxInt64 (object : Object) : object.size.toInt ≤ maxInt64 := by
  have h := Int64.toInt_lt object.size
  unfold maxInt64
  omega

theorem growths_append (done done' : List Measure) :
    growths (done ++ done') = growths done ++ growths done' := List.map_append

theorem changes_append (done done' : List Measure) :
    changes (done ++ done') = changes done ++ changes done' := List.map_append

theorem growths_nonneg {done : List Measure} : ∀ e ∈ growths done, 0 ≤ e.2 := by
  intro e he
  obtain ⟨e', _, rfl⟩ := List.mem_map.mp he
  exact Int.le_max_right _ _

theorem total_changes_le (done : List Measure) :
    Ledger.total (changes done) ≤ Ledger.total (growths done) := by
  induction done with
  | nil => exact Int.le_refl _
  | cons e done ih =>
    have hcons : Ledger.total (changes (e :: done)) = (e.size - e.2) + Ledger.total (changes done) :=
      Ledger.total_cons _ _
    have hcons' : Ledger.total (growths (e :: done)) =
        max (e.size - e.2) 0 + Ledger.total (growths done) := Ledger.total_cons _ _
    have hle := Int.le_max_left (e.size - e.2) 0
    omega

theorem total_growths_nonneg (done : List Measure) : 0 ≤ Ledger.total (growths done) := by
  apply List.sum_nonneg
  intro x hx
  obtain ⟨e, he, rfl⟩ := List.mem_map.mp hx
  exact growths_nonneg e he

theorem Adds.nil : Adds [] .zero := by
  constructor <;> first | rfl | (constructor <;> decide)

theorem changeRefused_cases {m : Measured} {done : List Measure} (h : Adds done m) {delta : ℤ}
    (hdelta : -maxInt64 ≤ delta ∧ delta ≤ maxInt64) :
    changeRefused m delta = some true ∨ changeRefused m delta = some false ∧
      (minInt64 ≤ m.delta + delta ∧ m.delta + delta ≤ maxInt64) ∧
      m.reserved + max delta 0 ≤ maxInt64 := by
  obtain ⟨hlow, hhigh⟩ := h.deltaFits
  obtain ⟨hreserved, hreserved'⟩ := h.reservedFits
  unfold changeRefused
  by_cases hpos : delta > 0
  · rw [if_pos hpos, checked_of_fits (by unfold minInt64 maxInt64 at *; omega)]
    by_cases hmore : m.reserved > maxInt64 - delta ∨ m.delta > maxInt64 - delta
    · left
      simp [hmore]
    · right
      simp only [Option.bind_eq_bind, Option.bind_some, hmore, decide_false]
      refine ⟨rfl, ?_, ?_⟩
      · omega
      · omega
  · rw [if_neg hpos]
    by_cases hneg : delta < 0
    · rw [if_pos hneg, checked_of_fits (by unfold minInt64 maxInt64 at *; omega)]
      by_cases hless : m.delta < minInt64 - delta
      · left
        simp [hless]
      · right
        simp only [Option.bind_eq_bind, Option.bind_some, hless, decide_false]
        refine ⟨rfl, ?_, ?_⟩
        · omega
        · omega
    · right
      rw [if_neg hneg]
      refine ⟨rfl, ?_, ?_⟩
      · omega
      · omega

theorem statObject_cases {m : Measured} {done : List Measure} {object : Object} {previous : ℤ}
    (h : Adds done m) (hobject : 0 ≤ object.size.toInt)
    (hprevious : 0 ≤ previous ∧ previous ≤ maxInt64) :
    statObject m object (some previous) = some none ∨
      ∃ m', statObject m object (some previous) = some (some m') ∧
        Adds (done ++ [(object, previous)]) m' := by
  have hsize := size_le_maxInt64 object
  obtain ⟨hprev, hprev'⟩ := h.previousFits
  unfold statObject
  dsimp only
  rw [if_neg (by omega), checked_of_fits (by unfold minInt64 maxInt64 at *; omega)]
  simp only [Option.bind_eq_bind, Option.bind_some]
  by_cases hroom : m.previousTotal > maxInt64 - previous
  · left
    rw [if_pos hroom]
    rfl
  rw [if_neg hroom, checked_of_fits (by unfold minInt64 maxInt64 at *; omega),
    checked_of_fits (by unfold minInt64 maxInt64 at *; omega)]
  simp only [Option.bind_some]
  rcases @changeRefused_cases m done h (object.size.toInt - previous) (by omega) with
    htrue | ⟨hfalse, hdelta, hreserved⟩
  · left
    rw [htrue]
    rfl
  right
  have hmax := Int.le_max_right (object.size.toInt - previous) 0
  rw [hfalse, checked_of_fits hdelta,
    checked_of_fits ⟨by unfold minInt64; have := h.reservedFits.1; omega, hreserved⟩]
  refine ⟨_, rfl, ?_⟩
  constructor
  · rw [List.map_append, List.sum_append, ← h.previousTotal]
    simp
  · rw [changes_append, Ledger.total_append, ← h.delta]
    simp [changes, Ledger.total, Measure.size]
  · rw [growths_append, Ledger.total_append, ← h.reserved]
    simp [growths, Ledger.total, Measure.size]
  · dsimp only
    omega
  · exact hdelta
  · have hpos := h.reservedFits.1
    exact ⟨by dsimp only; omega, hreserved⟩

end RenoP.Capacity
