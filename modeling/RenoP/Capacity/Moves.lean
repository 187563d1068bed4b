import RenoP.Capacity.Accounts

/-!
# Moves of the writers that keep the data

The invariant over moves of one thread that change neither the stored data nor the account, and
over the end of an epoch.
-/

namespace RenoP.Capacity

open RenoP.Database (Text)
open GoMap (Moves)

variable {bound : ℤ} {acc pot : List (Text × ℤ)} {clean : Prop} {s : System} {m m' : GoMap ℕ Pc}
  {b b' : Bucket} {thread : ℕ} {new : Option Pc}

theorem activity_nonneg (pc : Pc) : 0 ≤ pc.activity := by
  cases pc <;> simp [Pc.activity]

theorem loads_nonneg (pc : Pc) : 0 ≤ pc.loads := by
  cases pc <;> simp [Pc.loads]

theorem Books.active_pos (h : Books m b) {pc : Pc} (hload : m.load thread = some pc)
    (hpc : pc.activity = 1) : 0 < b.active := by
  have hle := GoMap.weight_le_sum (fun _ pc _ => activity_nonneg pc) (m := m) thread
  rw [GoMap.weight_of_load hload, hpc] at hle
  rw [h.active]
  omega

theorem Books.active_nonneg (h : Books m b) : 0 ≤ b.active := by
  rw [h.active]
  exact GoMap.sum_nonneg fun _ pc _ => activity_nonneg pc

theorem Books.no_loader (h : Books m b) (hactive : 0 < b.active) {t : ℕ} {pc : Pc}
    (hload : m.load t = some pc) : pc.loads = 0 := by
  have hloading : b.loading = false := by
    cases hb : b.loading with
    | false => rfl
    | true =>
      have hzero := (h.measuring hb).2
      omega
  have hle := GoMap.weight_le_sum (fun _ pc _ => loads_nonneg pc) (m := m) t
  have hsum := h.loading
  rw [GoMap.weight_of_load hload, ← hsum, hloading] at hle
  have hpos := loads_nonneg pc
  simp only [Bool.false_eq_true, if_false] at hle
  omega

theorem Books.of_loader (h : Books m b) {pc : Pc} (hload : m.load thread = some pc)
    (hpc : pc.loads = 1) : b.loading = true ∧ b.initialized = false ∧ b.active = 0 ∧
      ∀ t pc', t ≠ thread → m.load t = some pc' → pc'.loads = 0 := by
  have hle := GoMap.weight_le_sum (fun _ pc _ => loads_nonneg pc) (m := m) thread
  have hsum := h.loading
  rw [GoMap.weight_of_load hload, hpc, ← hsum] at hle
  have hloading : b.loading = true := by
    cases hb : b.loading with
    | true => rfl
    | false =>
      rw [hb] at hle
      simp at hle
  refine ⟨hloading, (h.measuring hloading).1, (h.measuring hloading).2, ?_⟩
  intro t pc' ht hload'
  rw [hloading] at hsum
  have hzero := GoMap.weight_eq_zero_of_sum_le (fun _ pc _ => loads_nonneg pc) ht
    (by rw [GoMap.weight_of_load hload, hpc, ← hsum]; decide)
  rw [GoMap.weight_of_load hload'] at hzero
  exact hzero

theorem Books.idle (h : Books m b) (hactive : b.active = 0) {t : ℕ} {pc : Pc}
    (hload : m.load t = some pc) : pc.activity = 0 := by
  have hle := GoMap.weight_le_sum (fun _ pc _ => activity_nonneg pc) (m := m) t
  rw [GoMap.weight_of_load hload, ← h.active, hactive] at hle
  have hpos := activity_nonneg pc
  omega

theorem Books.move (h : Books m b) (hm : Moves m m' thread new)
    (hkeep : ∀ t pc, t ≠ thread → m.load t = some pc →
      ∀ o ∈ pc.objects, b'.paths.load o.path = some true)
    (hnew : ∀ pc, new = some pc → ∀ o ∈ pc.objects, b'.paths.load o.path = some true ∧
      ∀ t pc', t ≠ thread → m.load t = some pc' → ∀ o' ∈ pc'.objects, o.path ≠ o'.path)
    (hactive : b'.active = b.active - (m.load thread).elim 0 Pc.activity +
      new.elim 0 Pc.activity)
    (hloading : (if b'.loading then (1 : ℤ) else 0) = (if b.loading then 1 else 0) -
      (m.load thread).elim 0 Pc.loads + new.elim 0 Pc.loads)
    (hmeasuring : b'.loading = true → b'.initialized = false ∧ b'.active = 0)
    (hreserved : b'.reserved = b.reserved - (m.load thread).elim 0 Pc.reserved +
      new.elim 0 Pc.reserved) : Books m' b' := by
  constructor
  · intro t pc hload o ho
    rcases hm.cases hload with ⟨_, hpc⟩ | ⟨ht, hpc⟩
    · exact (hnew pc hpc o ho).1
    · exact hkeep t pc ht hpc o ho
  · intro t t' pc pc' hne hload hload' o ho o' ho'
    rcases hm.cases hload with ⟨ht, hpc⟩ | ⟨ht, hpc⟩
    · rcases hm.cases hload' with ⟨ht', hpc'⟩ | ⟨ht', hpc'⟩
      · exact absurd (ht.trans ht'.symm) hne
      · exact (hnew pc hpc o ho).2 t' pc' ht' hpc' o' ho'
    · rcases hm.cases hload' with ⟨ht', hpc'⟩ | ⟨ht', hpc'⟩
      · exact ((hnew pc' hpc' o' ho').2 t pc ht hpc o ho).symm
      · exact h.apart t t' pc pc' hne hpc hpc' o ho o' ho'
  · rw [hm.sum, hactive, h.active]
  · rw [hm.sum, hloading, h.loading]
  · exact hmeasuring
  · rw [hm.sum, hreserved, h.reserved]

theorem growthAt_move (hm : Moves m m' thread new) (path : Text) :
    growthAt m' path = growthAt m path - (m.load thread).elim 0 (Ledger.balance ·.growth path) +
      new.elim 0 (Ledger.balance ·.growth path) :=
  hm.sum fun pc => Ledger.balance pc.growth path

theorem changeAt_move (hm : Moves m m' thread new) (path : Text) :
    changeAt m' path = changeAt m path - (m.load thread).elim 0 (Ledger.balance ·.change path) +
      new.elim 0 (Ledger.balance ·.change path) :=
  hm.sum fun pc => Ledger.balance pc.change path

theorem quiet_of_moves {s' : System} (hm : Moves s.threads s'.threads thread new)
    (hold : s.threads.load thread ≠ some .deleted) (hq : s'.quiet) : s.quiet := by
  intro t
  by_cases ht : t = thread
  · rw [ht]
    exact hold
  · have hqt := hq t
    rw [hm.load, if_neg ht] at hqt
    exact hqt

theorem Kept.move (h : Kept bound acc pot clean s) (hm : Moves s.threads m' thread new)
    (hbooks : Books m' b') (hused : b'.used = s.bucket.used)
    (hreserved : b'.reserved = s.bucket.reserved) (hepoch : b'.epoch = s.bucket.epoch)
    (hinitialized : b'.initialized = s.bucket.initialized)
    (hactive : 0 < b'.active → s.bucket.initialized = true ∨ 0 < s.bucket.active)
    (hold : s.threads.load thread ≠ some .deleted)
    (hheld : ∀ pc, s.threads.load thread = some pc → pc.growth = [] ∧ pc.change = [])
    (hnew : ∀ pc, new = some pc → PcOk (s.view acc clean) pc ∧ pc.growth = [] ∧ pc.change = [] ∧
      (∀ objects epoch used, pc ≠ .install objects epoch (some used)) ∧
      ∀ e ∈ pc.claims s.bucket.epoch, e.2 ≤ Ledger.balance pot e.1) :
    Kept bound acc pot clean { s with bucket := b', threads := m' } := by
  have hview : ({ s with bucket := b', threads := m' } : System).view acc clean =
      s.view acc clean := by
    unfold System.view
    rw [hepoch, hinitialized]
    rfl
  have hgrowth : ∀ path, growthAt m' path = growthAt s.threads path := by
    intro path
    rw [growthAt_move hm]
    cases hload : s.threads.load thread with
    | none =>
      cases new with
      | none => simp
      | some pc => simp [(hnew pc rfl).2.1]
    | some pc =>
      cases new with
      | none => simp [(hheld pc hload).1]
      | some pc' => simp [(hheld pc hload).1, (hnew pc' rfl).2.1]
  have hchange : ∀ path, changeAt m' path = changeAt s.threads path := by
    intro path
    rw [changeAt_move hm]
    cases hload : s.threads.load thread with
    | none =>
      cases new with
      | none => simp
      | some pc => simp [(hnew pc rfl).2.2.1]
    | some pc =>
      cases new with
      | none => simp [(hheld pc hload).2]
      | some pc' => simp [(hheld pc hload).2, (hnew pc' rfl).2.2.1]
  constructor
  · exact hbooks
  · intro t pc hload
    rw [hview]
    rcases hm.cases hload with ⟨_, hpc⟩ | ⟨_, hpc⟩
    · exact (hnew pc hpc).1
    · exact h.promises t pc hpc
  · intro t objects epoch used hload
    rcases hm.cases hload with ⟨_, hpc⟩ | ⟨_, hpc⟩
    · exact absurd rfl ((hnew _ hpc).2.2.2.1 objects epoch used)
    · have hsnap := h.snapshot t objects epoch used hpc
      refine ⟨hsnap.total, hsnap.le_bound, hsnap.nonneg, hsnap.size_le, hsnap.exact_size, ?_⟩
      intro heq hq
      exact hsnap.clean (heq.trans hepoch) (quiet_of_moves hm hold hq)
  · intro hcounted
    have hbefore : s.bucket.initialized = true ∨ 0 < s.bucket.active := by
      rcases hcounted with hinit | hact
      · exact Or.inl (hinitialized ▸ hinit)
      · exact hactive hact
    show b'.used = _ ∧ b'.used + b'.reserved ≤ _ ∧ _
    rw [hused, hreserved]
    exact h.counted hbefore
  · intro hinit path
    show s.statSize path ≤ _ + growthAt m' path
    rw [hgrowth]
    exact h.grown (hinitialized ▸ hinit) path
  · intro hinit hclean path
    show s.statSize path = _ + changeAt m' path
    rw [hchange]
    exact h.exact_used (hinitialized ▸ hinit) hclean path
  · intro hinit hq
    exact h.cleanly (hinitialized ▸ hinit) (quiet_of_moves hm hold hq)
  · exact h.pot_total
  · exact h.covered
  · intro t pc hload e he
    have he' : e ∈ pc.claims s.bucket.epoch := by
      rw [← hepoch]
      exact he
    rcases hm.cases hload with ⟨_, hpc⟩ | ⟨_, hpc⟩
    · exact (hnew pc hpc).2.2.2.2 e he'
    · exact h.claimed t pc hpc e he'
  · exact h.fits

theorem PcOk.later {v v' : View} {pc : Pc} (h : PcOk v pc)
    (hsize : ∀ o ∈ pc.objects, v'.size o.path ≤ v.size o.path)
    (hacc : ∀ o ∈ pc.objects, v'.acc o.path = v.acc o.path) (hepoch : v.epoch ≤ v'.epoch)
    (hcurrent : v'.epoch = v.epoch → v.initialized = true → v'.initialized = true)
    (hinitialized : v'.initialized = true → v.initialized = true)
    (hclean : v'.clean → v.clean) : PcOk v' pc := by
  have hreads : ∀ {done : List Measure} {rest : List Object} {epoch : ℕ},
      (∀ o ∈ done.map Prod.fst ++ rest, v'.size o.path ≤ v.size o.path) →
      (∀ o ∈ done.map Prod.fst ++ rest, v'.acc o.path = v.acc o.path) →
      Reads v (done.map Prod.fst ++ rest) done epoch →
        Reads v' (done.map Prod.fst ++ rest) done epoch := by
    intro done rest epoch hsize hacc h
    have hmem : ∀ e ∈ done, e.1 ∈ done.map Prod.fst ++ rest := fun e he =>
      List.mem_append_left rest (List.mem_map_of_mem he)
    have hsame : epoch = v'.epoch → v'.epoch = v.epoch := by
      intro heq
      have hle := h.epoch_le
      omega
    constructor
    · exact h.valid
    · exact Nat.le_trans h.epoch_le hepoch
    · intro heq
      exact hcurrent (hsame heq) (h.initialized (heq.trans (hsame heq)))
    · exact h.nonneg
    · intro e he
      exact Int.le_trans (hsize e.1 (hmem e he)) (h.size_le e he)
    · intro heq e he
      rw [show v'.acc e.path = v.acc e.path from hacc e.1 (hmem e he)]
      exact h.le_acc (heq.trans (hsame heq)) e he
    · intro heq hc e he
      rw [show v'.acc e.path = v.acc e.path from hacc e.1 (hmem e he)]
      exact h.exact_acc (heq.trans (hsame heq)) (hclean hc) e he
  cases pc with
  | ready objects | lock objects => exact h
  | load objects epoch | install objects epoch result => exact ⟨h.1, Nat.le_trans h.2 hepoch⟩
  | stat done rest epoch m => exact ⟨hreads hsize hacc h.1, h.2⟩
  | grant done rest epoch result => exact ⟨hreads hsize hacc h.1, h.2⟩
  | held done delta reserved written =>
    obtain ⟨hholds, hsums⟩ := h
    have hmem : ∀ e ∈ done, e.1 ∈ done.map Prod.fst := fun e he => List.mem_map_of_mem he
    refine ⟨⟨hholds.valid, hholds.nonneg, ?_, ?_, ?_⟩, hsums⟩
    · intro e he
      rw [show v'.acc e.path = v.acc e.path from hacc e.1 (hmem e he)]
      exact hholds.le_acc e he
    · intro e he
      exact Int.le_trans (hsize e.1 (hmem e he)) (hholds.size_le e he)
    · intro hinit hc e he
      rw [show v'.acc e.path = v.acc e.path from hacc e.1 (hmem e he)]
      exact hholds.exact_acc (hinitialized hinit) (hclean hc) e he
  | deleted => trivial

theorem claims_of_later {v : View} {pc : Pc} (h : PcOk v pc) {e : Text × ℤ} {epoch : ℕ}
    (hlater : v.epoch < epoch) (he : e ∈ pc.claims epoch) : e ∈ pc.claims v.epoch := by
  cases pc with
  | stat done rest epoch' m | grant done rest epoch' m =>
    have hle := h.1.epoch_le
    have hne : epoch' ≠ epoch := by omega
    simp only [Pc.claims, if_neg hne] at he
    cases he
  | held done delta reserved written => exact he
  | ready _ | load _ _ | install _ _ _ | lock _ | deleted => cases he

theorem Kept.endEpoch (h : Kept bound acc pot clean s) (hpaths : b'.paths = s.bucket.paths)
    (hactive : b'.active = s.bucket.active) (hused : b'.used = s.bucket.used)
    (hreserved : b'.reserved = s.bucket.reserved) (hloading : b'.loading = s.bucket.loading)
    (hepoch : b'.epoch = s.bucket.epoch + 1) (hinitialized : b'.initialized = false) :
    Kept bound acc pot clean { s with bucket := b' } := by
  have hnot : ¬b'.initialized = true := by
    rw [hinitialized]
    exact Bool.false_ne_true
  constructor
  · obtain ⟨hlocked, hapart, hact, hload, hmeasuring, hres⟩ := h.books
    refine ⟨?_, hapart, hactive.trans hact, ?_, ?_, hreserved.trans hres⟩
    · rw [hpaths]
      exact hlocked
    · rw [hloading]
      exact hload
    · intro hb
      rw [hactive]
      exact ⟨hinitialized, (hmeasuring (hloading ▸ hb)).2⟩
  · intro t pc hload
    apply (h.promises t pc hload).later
    · intro _ _
      exact Int.le_refl _
    · intro _ _
      rfl
    · show s.bucket.epoch ≤ b'.epoch
      omega
    · intro heq
      have heq' : b'.epoch = s.bucket.epoch := heq
      omega
    · intro hinit
      exact absurd hinit hnot
    · exact id
  · intro t objects epoch used hload
    have hle : epoch ≤ s.bucket.epoch := (h.promises t _ hload).2
    have hsnap := h.snapshot t objects epoch used hload
    refine ⟨hsnap.total, hsnap.le_bound, hsnap.nonneg, hsnap.size_le, hsnap.exact_size, ?_⟩
    intro heq
    have heq' : epoch = b'.epoch := heq
    omega
  · intro hcounted
    have hpos : 0 < s.bucket.active := by
      rcases hcounted with hinit | hact
      · exact absurd hinit hnot
      · exact hactive ▸ hact
    show b'.used = _ ∧ b'.used + b'.reserved ≤ _ ∧ _
    rw [hused, hreserved]
    exact h.counted (Or.inr hpos)
  · intro hinit
    exact absurd hinit hnot
  · intro hinit
    exact absurd hinit hnot
  · intro hinit
    exact absurd hinit hnot
  · exact h.pot_total
  · exact h.covered
  · intro t pc hload e he
    apply h.claimed t pc hload
    apply claims_of_later (h.promises t pc hload) _ he
    show s.bucket.epoch < b'.epoch
    omega
  · exact h.fits

end RenoP.Capacity
