import RenoP.Capacity.Finish

/-!
# Runs of the writers

Any number of calls in any order of their steps, from a bucket that nothing is known of.
-/

namespace RenoP.Capacity

open RenoP.Database (Text)

variable {bound : ℤ} {acc pot : List (Text × ℤ)} {clean : Prop} {s : System} {limit : Int64}

theorem Kept.next (h : Kept bound acc pot clean s) (hbound : bound ≤ maxInt64)
    (hlimit : limit.toInt ≤ bound) (action : Action) :
    ∃ acc' pot' clean', Kept bound acc' pot' clean' (s.next limit action) := by
  cases action with
  | reserve thread objects => exact ⟨acc, pot, clean, h.next_reserve objects⟩
  | ready thread beforeRetry => exact ⟨acc, pot, clean, h.next_ready beforeRetry⟩
  | load thread fails =>
    obtain ⟨acc', clean', hnext⟩ := h.next_load fails
    exact ⟨acc', pot, clean', hnext⟩
  | install thread => exact ⟨acc, pot, clean, h.next_install⟩
  | lock thread => exact ⟨acc, pot, clean, h.next_lock⟩
  | stat thread fails => exact ⟨acc, pot, clean, h.next_stat hbound fails⟩
  | statEnd thread cancelled => exact ⟨acc, pot, clean, h.next_statEnd cancelled⟩
  | grant thread =>
    obtain ⟨pot', hnext⟩ := h.next_admit hbound hlimit
    exact ⟨acc, pot', clean, hnext⟩
  | cancel thread => exact ⟨acc, pot, clean, h.next_cancel⟩
  | write thread path => exact ⟨acc, pot, clean, h.next_write path⟩
  | commit thread =>
    obtain ⟨acc', hnext⟩ := h.next_commit hbound
    exact ⟨acc', pot, clean, hnext⟩
  | release thread => exact ⟨acc, pot, clean, h.next_release hbound⟩
  | delete thread path =>
    obtain ⟨clean', hnext⟩ := h.next_delete path
    exact ⟨acc, pot, clean', hnext⟩
  | invalidate thread => exact ⟨acc, pot, clean, h.next_invalidate⟩

theorem kept_start {stored : GoMap Text ℕ} (h : Ledger.total (Ledger.ofMap stored) ≤ bound) :
    Kept bound (Ledger.ofMap stored) (Ledger.ofMap stored) True (System.start stored) := by
  have hnone : ∀ {t pc}, (System.start stored).threads.load t ≠ some pc := by
    intro t pc hpc
    cases (GoMap.load_empty t).symm.trans hpc
  have hidle : ¬((System.start stored).bucket.initialized = true ∨
      0 < (System.start stored).bucket.active) := by
    show ¬(false = true ∨ (0 : ℤ) < 0)
    decide
  constructor
  · constructor
    · exact fun t pc hpc => absurd hpc hnone
    · exact fun t t' pc pc' _ hpc => absurd hpc hnone
    · rfl
    · rfl
    · exact nofun
    · rfl
  · exact fun t pc hpc => absurd hpc hnone
  · exact fun t objects epoch used hpc => absurd hpc hnone
  · exact fun hcounted => absurd hcounted hidle
  · exact nofun
  · exact nofun
  · exact nofun
  · exact h
  · intro path
    exact le_of_eq (Ledger.balance_ofMap stored path).symm
  · exact fun t pc hpc => absurd hpc hnone
  · rfl

def System.run (s : System) (limit : Int64) (actions : List Action) : System :=
  actions.foldl (System.next limit) s

theorem Kept.run (actions : List Action) (hbound : bound ≤ maxInt64)
    (hlimit : limit.toInt ≤ bound) (h : Kept bound acc pot clean s) :
    ∃ acc' pot' clean', Kept bound acc' pot' clean' (s.run limit actions) := by
  induction actions generalizing acc pot clean s with
  | nil => exact ⟨acc, pot, clean, h⟩
  | cons action actions ih =>
    obtain ⟨acc', pot', clean', hnext⟩ := h.next hbound hlimit action
    exact ih hnext

def System.unreserved (s : System) : Prop :=
  ∀ t done delta reserved written, s.threads.load t ≠ some (.held done delta reserved written)

theorem Kept.used_eq (h : Kept bound acc pot clean s) (hinit : s.bucket.initialized = true)
    (hunreserved : s.unreserved) (hquiet : s.quiet) : s.bucket.used = s.bytes := by
  have hclean := h.cleanly hinit hquiet
  have hchange : ∀ path, changeAt s.threads path = 0 := by
    intro path
    apply List.sum_eq_zero
    intro x hx
    obtain ⟨⟨t, pc⟩, he, rfl⟩ := List.mem_map.mp hx
    have hload := (GoMap.mem_entries_iff s.threads t pc).mp he
    cases pc with
    | held done delta reserved written => exact absurd hload (hunreserved t done delta reserved written)
    | ready _ | load _ _ | install _ _ _ | lock _ | stat _ _ _ _ | grant _ _ _ _ | deleted => rfl
  rw [(h.counted (Or.inl hinit)).1]
  apply Ledger.total_eq_total
  intro path
  have heq := h.exact_used hinit hclean path
  rw [hchange, add_zero] at heq
  rw [Ledger.balance_ofMap]
  exact heq.symm

def System.apart (s : System) : Prop :=
  ∀ t t' pc pc', t ≠ t' → s.threads.load t = some pc → s.threads.load t' = some pc' →
    ∀ o ∈ pc.objects, ∀ o' ∈ pc'.objects, o.path ≠ o'.path

/-- The stored bytes stay within the limit or within what was stored first, reservations share no
path, the counter is right when nothing is under way, and no operation overflows. -/
theorem capacity_never_exceeded (limit : Int64) (_hlimit : 0 < limit.toInt)
    (stored : GoMap Text ℕ) (hstored : (System.start stored).bytes ≤ maxInt64)
    (actions : List Action) :
    ((System.start stored).run limit actions).bytes ≤
        max limit.toInt (System.start stored).bytes ∧
      ((System.start stored).run limit actions).apart ∧
      (((System.start stored).run limit actions).bucket.initialized = true →
        ((System.start stored).run limit actions).unreserved →
        ((System.start stored).run limit actions).quiet →
        ((System.start stored).run limit actions).bucket.used =
          ((System.start stored).run limit actions).bytes) ∧
      ((System.start stored).run limit actions).overflow = false := by
  have hmax := Int64.toInt_lt limit
  have hbound : max limit.toInt (System.start stored).bytes ≤ maxInt64 := by
    apply max_le _ hstored
    unfold maxInt64
    omega
  have hstart := kept_start (le_max_right limit.toInt (System.start stored).bytes)
  obtain ⟨acc, pot, clean, hkept⟩ := hstart.run actions hbound (le_max_left _ _)
  exact ⟨hkept.bytes_le, hkept.books.apart, hkept.used_eq, hkept.fits⟩

def jar : Text := "lib.jar".toList
def pom : Text := "lib.pom".toList

def twoWriters : List Action :=
  [.reserve 0 [⟨jar, 8⟩], .reserve 1 [⟨pom, 4⟩], .ready 0 false, .load 0 false, .ready 1 false,
    .install 0, .ready 0 false, .ready 1 false, .lock 1, .lock 0, .stat 0 false, .stat 1 false,
    .statEnd 0 false, .statEnd 1 false, .grant 0, .grant 1, .write 0 jar, .commit 0]

theorem twoWriters_within :
    ((System.start (GoMap.store ∅ jar 3)).run 10 twoWriters).bytes ≤
        max (10 : Int64).toInt (System.start (GoMap.store ∅ jar 3)).bytes ∧
      ((System.start (GoMap.store ∅ jar 3)).run 10 twoWriters).overflow = false :=
  have h := capacity_never_exceeded 10 (by decide) (GoMap.store ∅ jar 3) (by decide +kernel)
    twoWriters
  ⟨h.1, h.2.2.2⟩

/-- No reservation leaks: what the bucket has reserved is what the reservations hold that are
neither committed nor released. -/
theorem reservations_accounted (limit : Int64) (_hlimit : 0 < limit.toInt)
    (stored : GoMap Text ℕ) (hstored : (System.start stored).bytes ≤ maxInt64)
    (actions : List Action) :
    ((System.start stored).run limit actions).bucket.reserved =
        GoMap.sum (fun _ => Pc.reserved) ((System.start stored).run limit actions).threads ∧
      0 ≤ ((System.start stored).run limit actions).bucket.reserved ∧
      (((System.start stored).run limit actions).unreserved →
        ((System.start stored).run limit actions).bucket.reserved = 0) := by
  have hbound : max limit.toInt (System.start stored).bytes ≤ maxInt64 := by
    have hmax := Int64.toInt_lt limit
    apply max_le _ hstored
    unfold maxInt64
    omega
  have hstart := kept_start (le_max_right limit.toInt (System.start stored).bytes)
  obtain ⟨acc, pot, clean, hkept⟩ := hstart.run actions hbound (le_max_left _ _)
  refine ⟨hkept.books.reserved, hkept.reserved_nonneg, fun hunreserved =>
    hkept.books.reserved.trans ?_⟩
  apply List.sum_eq_zero
  intro x hx
  obtain ⟨⟨t, pc⟩, he, rfl⟩ := List.mem_map.mp hx
  have hload := (GoMap.mem_entries_iff _ t pc).mp he
  cases pc with
  | held done delta reserved written =>
    exact absurd hload (hunreserved t done delta reserved written)
  | ready _ | load _ _ | install _ _ _ | lock _ | stat _ _ _ _ | grant _ _ _ _ | deleted => rfl

theorem twoWriters_accounted :
    ((System.start (GoMap.store ∅ jar 3)).run 10 twoWriters).bucket.reserved =
      GoMap.sum (fun _ => Pc.reserved)
        ((System.start (GoMap.store ∅ jar 3)).run 10 twoWriters).threads :=
  (reservations_accounted 10 (by decide) (GoMap.store ∅ jar 3) (by decide +kernel) twoWriters).1

example : ((System.start (GoMap.store ∅ jar 3)).run 10 twoWriters).bytes = 8 := by
  decide +kernel

end RenoP.Capacity
