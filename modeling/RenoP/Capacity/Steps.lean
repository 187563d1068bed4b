import RenoP.Capacity.Moves

/-!
# Steps of `Reserve` before the admission

The calls that wait, measure, lock paths and read sizes keep the invariant.
-/

namespace RenoP.Capacity

open RenoP.Database (Text)
open GoMap (Moves)

variable {bound : ℤ} {acc pot : List (Text × ℤ)} {clean : Prop} {s : System} {thread : ℕ}

theorem Kept.pot_nonneg (h : Kept bound acc pot clean s) (path : Text) :
    0 ≤ Ledger.balance pot path :=
  Int.le_trans (Ledger.amount_nonneg s.stored path) (h.covered path)

theorem Kept.size_le (h : Kept bound acc pot clean s) (path : Text) : s.statSize path ≤ bound :=
  Int.le_trans (h.covered path)
    (Int.le_trans (Ledger.balance_le_total h.pot_nonneg path) h.pot_total)

theorem Kept.bytes_le (h : Kept bound acc pot clean s) : s.bytes ≤ bound := by
  have hle : s.bytes ≤ Ledger.total pot := by
    apply Ledger.total_le_total
    intro path
    rw [Ledger.balance_ofMap]
    exact h.covered path
  exact Int.le_trans hle h.pot_total

theorem growth_paths {pc : Pc} {path : Text} (h : path ∈ pc.growth.map Prod.fst) :
    ∃ o ∈ pc.objects, o.path = path := by
  cases pc with
  | held done delta reserved written =>
    obtain ⟨g, hg, rfl⟩ := List.mem_map.mp h
    obtain ⟨e, he, rfl⟩ := List.mem_map.mp hg
    exact ⟨e.1, List.mem_map_of_mem he, rfl⟩
  | ready _ | load _ _ | install _ _ _ | lock _ | stat _ _ _ _ | grant _ _ _ _ | deleted => cases h

theorem change_paths {pc : Pc} {path : Text} (h : path ∈ pc.change.map Prod.fst) :
    ∃ o ∈ pc.objects, o.path = path := by
  cases pc with
  | held done delta reserved written =>
    obtain ⟨g, hg, rfl⟩ := List.mem_map.mp h
    obtain ⟨e, he, rfl⟩ := List.mem_map.mp hg
    exact ⟨e.1, List.mem_map_of_mem (List.mem_filter.mp he).1, rfl⟩
  | ready _ | load _ _ | install _ _ _ | lock _ | stat _ _ _ _ | grant _ _ _ _ | deleted => cases h

theorem Books.growthAt_eq {m : GoMap ℕ Pc} {b : Bucket} (h : Books m b) {pc : Pc}
    (hload : m.load thread = some pc) {o : Object} (ho : o ∈ pc.objects) :
    growthAt m o.path = Ledger.balance pc.growth o.path := by
  have hothers : ∀ t pc', t ≠ thread → m.load t = some pc' →
      Ledger.balance pc'.growth o.path = 0 := by
    intro t pc' ht hload'
    apply Ledger.balance_of_not_mem
    intro hmem
    obtain ⟨o', ho', heq⟩ := growth_paths hmem
    exact h.apart t thread pc' pc ht hload' hload o' ho' o ho heq
  exact (GoMap.sum_eq_weight hothers).trans (GoMap.weight_of_load hload)

theorem Books.changeAt_eq {m : GoMap ℕ Pc} {b : Bucket} (h : Books m b) {pc : Pc}
    (hload : m.load thread = some pc) {o : Object} (ho : o ∈ pc.objects) :
    changeAt m o.path = Ledger.balance pc.change o.path := by
  have hothers : ∀ t pc', t ≠ thread → m.load t = some pc' →
      Ledger.balance pc'.change o.path = 0 := by
    intro t pc' ht hload'
    apply Ledger.balance_of_not_mem
    intro hmem
    obtain ⟨o', ho', heq⟩ := change_paths hmem
    exact h.apart t thread pc' pc ht hload' hload o' ho' o ho heq
  exact (GoMap.sum_eq_weight hothers).trans (GoMap.weight_of_load hload)

theorem growth_nonneg (pc : Pc) (path : Text) : 0 ≤ Ledger.balance pc.growth path := by
  cases pc with
  | held done delta reserved written => exact Ledger.balance_nonneg growths_nonneg path
  | ready _ | load _ _ | install _ _ _ | lock _ | stat _ _ _ _ | grant _ _ _ _ | deleted =>
    exact Int.le_refl 0

theorem growthAt_nonneg (m : GoMap ℕ Pc) (path : Text) : 0 ≤ growthAt m path :=
  GoMap.sum_nonneg fun _ pc _ => growth_nonneg pc path

theorem Kept.moveIdle (h : Kept bound acc pot clean s) {m' : GoMap ℕ Pc} {new : Option Pc}
    {b' : Bucket} (hm : Moves s.threads m' thread new)
    (hold : ∀ pc, s.threads.load thread = some pc → pc.activity = 0 ∧ pc ≠ .deleted)
    (hnew : ∀ pc, new = some pc → pc.activity = 0 ∧ PcOk (s.view acc clean) pc ∧
      ∀ objects epoch used, pc ≠ .install objects epoch (some used))
    (hloading : (if b'.loading then (1 : ℤ) else 0) = (if s.bucket.loading then 1 else 0) -
      (s.threads.load thread).elim 0 Pc.loads + new.elim 0 Pc.loads)
    (hmeasuring : b'.loading = true → s.bucket.initialized = false ∧ s.bucket.active = 0)
    (hpaths : b'.paths = s.bucket.paths) (hactive : b'.active = s.bucket.active)
    (hused : b'.used = s.bucket.used) (hreserved : b'.reserved = s.bucket.reserved)
    (hepoch : b'.epoch = s.bucket.epoch) (hinitialized : b'.initialized = s.bucket.initialized) :
    Kept bound acc pot clean { s with bucket := b', threads := m' } := by
  have hidle : ∀ pc : Pc, pc.activity = 0 → pc.objects = [] ∧ pc.reserved = 0 ∧ pc.growth = [] ∧
      pc.change = [] ∧ ∀ epoch, pc.claims epoch = [] := by
    intro pc hpc
    cases pc <;> simp [Pc.activity, Pc.objects, Pc.reserved, Pc.growth, Pc.change, Pc.claims]
      at hpc ⊢
  have hzero : ∀ {o : Option Pc} {f : Pc → ℤ}, (∀ pc, o = some pc → pc.activity = 0) →
      (∀ pc : Pc, pc.activity = 0 → f pc = 0) → o.elim 0 f = 0 := by
    intro o f ho hf
    cases o with
    | none => rfl
    | some pc => exact hf pc (ho pc rfl)
  have hold' : ∀ pc, s.threads.load thread = some pc → pc.activity = 0 :=
    fun pc hpc => (hold pc hpc).1
  have hnew' : ∀ pc, new = some pc → pc.activity = 0 := fun pc hpc => (hnew pc hpc).1
  refine h.move hm ?_ hused hreserved hepoch hinitialized ?_ ?_ ?_ ?_
  · apply h.books.move hm
    · intro t pc _ hload o ho
      rw [hpaths]
      exact h.books.locked t pc hload o ho
    · intro pc hpc o ho
      rw [(hidle pc (hnew' pc hpc)).1] at ho
      cases ho
    · rw [hactive, hzero hold' fun pc hpc => hpc, hzero hnew' fun pc hpc => hpc]
      omega
    · exact hloading
    · rw [hinitialized, hactive]
      exact hmeasuring
    · rw [hreserved, hzero hold' fun pc hpc => (hidle pc hpc).2.1,
        hzero hnew' fun pc hpc => (hidle pc hpc).2.1]
      omega
  · intro hpos
    rw [hactive] at hpos
    exact Or.inr hpos
  · intro hload
    exact (hold _ hload).2 rfl
  · intro pc hpc
    exact ⟨(hidle pc (hold' pc hpc)).2.2.1, (hidle pc (hold' pc hpc)).2.2.2.1⟩
  · intro pc hpc
    obtain ⟨hactivity, hok, hinstall⟩ := hnew pc hpc
    obtain ⟨-, -, hgrowth, hchange, hclaims⟩ := hidle pc hactivity
    refine ⟨hok, hgrowth, hchange, hinstall, ?_⟩
    intro e he
    rw [hclaims] at he
    cases he

def Pc.waits : Pc → Bool
  | .ready _ | .lock _ => true
  | _ => false

theorem Kept.wander (h : Kept bound acc pot clean s) {m' : GoMap ℕ Pc} {new : Option Pc}
    (hm : Moves s.threads m' thread new)
    (hold : ∀ pc, s.threads.load thread = some pc → pc.waits = true)
    (hnew : ∀ pc, new = some pc → pc.waits = true ∧ PcOk (s.view acc clean) pc) :
    Kept bound acc pot clean { s with threads := m' } := by
  have hwaits : ∀ pc : Pc, pc.waits = true → pc.activity = 0 ∧ pc.loads = 0 ∧ pc ≠ .deleted ∧
      ∀ objects epoch used, pc ≠ .install objects epoch (some used) := by
    intro pc hpc
    cases pc <;> simp [Pc.waits, Pc.activity, Pc.loads] at hpc ⊢
  have hzero : ∀ {o : Option Pc}, (∀ pc, o = some pc → pc.waits = true) →
      o.elim 0 Pc.loads = 0 := by
    intro o ho
    cases o with
    | none => rfl
    | some pc => exact (hwaits pc (ho pc rfl)).2.1
  refine h.moveIdle hm ?_ ?_ ?_ h.books.measuring rfl rfl rfl rfl rfl rfl
  · intro pc hpc
    obtain ⟨hactivity, -, hdeleted, -⟩ := hwaits pc (hold pc hpc)
    exact ⟨hactivity, hdeleted⟩
  · intro pc hpc
    obtain ⟨hpc', hok⟩ := hnew pc hpc
    obtain ⟨hactivity, -, -, hinstall⟩ := hwaits pc hpc'
    exact ⟨hactivity, hok, hinstall⟩
  · rw [hzero hold, hzero fun pc hpc => (hnew pc hpc).1]
    omega

variable {limit : Int64}

theorem Kept.next_reserve (h : Kept bound acc pot clean s) (objects : List Object) :
    Kept bound acc pot clean (s.next limit (.reserve thread objects)) := by
  unfold System.next
  dsimp only
  split
  · rename_i hload
    split_ifs with hvalid
    · apply h.wander (moves_goto s thread (.ready objects))
      · intro pc hpc
        rw [hload] at hpc
        cases hpc
      · intro pc hpc
        cases hpc
        exact ⟨rfl, hvalid⟩
    · exact h
  · exact h

theorem Kept.next_cancel (h : Kept bound acc pot clean s) :
    Kept bound acc pot clean (s.next limit (.cancel thread)) := by
  unfold System.next
  dsimp only
  split
  · rename_i hload
    apply h.wander (moves_leave s thread)
    · intro pc hpc
      rw [hload] at hpc
      cases hpc
      rfl
    · intro pc hpc
      cases hpc
  · exact h

theorem Kept.next_ready (h : Kept bound acc pot clean s) (beforeRetry : Bool) :
    Kept bound acc pot clean (s.next limit (.ready thread beforeRetry)) := by
  unfold System.next
  dsimp only
  split
  · rename_i objects hload
    have hvalid : validObjects objects = true := h.promises thread _ hload
    have hold : ∀ pc, s.threads.load thread = some pc → pc.waits = true := by
      intro pc hpc
      rw [hload] at hpc
      cases hpc
      rfl
    unfold Bucket.ready
    split_ifs with hinitialized hwait hretry
    · apply h.wander (moves_goto s thread (.lock objects)) hold
      intro pc hpc
      cases hpc
      exact ⟨rfl, hvalid⟩
    · exact h
    · apply h.wander (moves_leave s thread) hold
      intro pc hpc
      cases hpc
    · rw [not_or, Bool.not_eq_true, Int.not_lt] at hwait
      refine h.moveIdle (moves_goto s thread (.load objects s.bucket.epoch)) ?_ ?_ ?_ ?_ rfl rfl rfl
        rfl rfl rfl
      · intro pc hpc
        rw [hload] at hpc
        cases hpc
        exact ⟨rfl, nofun⟩
      · intro pc hpc
        cases hpc
        exact ⟨rfl, ⟨hvalid, Nat.le_refl _⟩, nofun⟩
      · rw [hload, hwait.1]
        rfl
      · intro _
        have hpos := h.books.active_nonneg
        exact ⟨Bool.eq_false_iff.mpr hinitialized, by omega⟩
  · exact h

theorem PcOk.of_idle {v v' : View} {pc : Pc} (h : PcOk v pc) (hpc : pc.activity = 0)
    (hepoch : v.epoch ≤ v'.epoch) : PcOk v' pc := by
  cases pc with
  | ready objects | lock objects => exact h
  | load objects epoch | install objects epoch result => exact ⟨h.1, Nat.le_trans h.2 hepoch⟩
  | stat _ _ _ _ | grant _ _ _ _ | held _ _ _ _ => cases hpc
  | deleted => trivial

theorem Kept.next_load_ok (h : Kept bound acc pot clean s) {objects : List Object} {epoch : ℕ}
    (hload : s.threads.load thread = some (.load objects epoch)) :
    Kept bound (Ledger.ofMap s.stored) pot True
      (s.goto thread (.install objects epoch (some s.bytes))) := by
  obtain ⟨hloading, hinitialized, hactive, hloaders⟩ := h.books.of_loader hload rfl
  have hm := moves_goto s thread (.install objects epoch (some s.bytes))
  have hpromise := h.promises thread _ hload
  have hnot : ¬(s.goto thread (.install objects epoch (some s.bytes))).bucket.initialized = true := by
    show ¬s.bucket.initialized = true
    rw [hinitialized]
    exact Bool.false_ne_true
  constructor
  · apply h.books.move hm
    · intro t pc _ hpc o ho
      exact h.books.locked t pc hpc o ho
    · intro pc hpc o ho
      cases hpc
      cases ho
    · rw [hload]
      simp [System.goto, Pc.activity]
    · rw [hload]
      show (if s.bucket.loading then (1 : ℤ) else 0) = (if s.bucket.loading then 1 else 0) - 1 + 1
      omega
    · exact h.books.measuring
    · rw [hload]
      simp [System.goto, Pc.reserved]
  · intro t pc hpc
    rcases hm.cases_some hpc with rfl | ⟨_, hpc'⟩
    · exact hpromise
    · exact (h.promises t pc hpc').of_idle (h.books.idle hactive hpc') (Nat.le_refl _)
  · intro t objects' epoch' used hpc
    rcases hm.cases_some hpc with heq | ⟨ht, hpc'⟩
    · cases heq
      have hsize : ∀ path, s.statSize path = Ledger.balance (Ledger.ofMap s.stored) path :=
        fun path => (Ledger.balance_ofMap s.stored path).symm
      refine ⟨rfl, h.bytes_le, ?_, fun path => le_of_eq (hsize path), fun _ => hsize,
        fun _ _ => trivial⟩
      intro path
      rw [Ledger.balance_ofMap]
      exact Ledger.amount_nonneg s.stored path
    · have hzero := hloaders t _ ht hpc'
      cases hzero
  · intro hcounted
    rcases hcounted with hinit | hpos
    · exact absurd hinit hnot
    · have hpos' : 0 < s.bucket.active := hpos
      omega
  · intro hinit
    exact absurd hinit hnot
  · intro hinit
    exact absurd hinit hnot
  · intro hinit
    exact absurd hinit hnot
  · exact h.pot_total
  · exact h.covered
  · intro t pc hpc e he
    rcases hm.cases_some hpc with rfl | ⟨_, hpc'⟩
    · cases he
    · exact h.claimed t pc hpc' e he
  · exact h.fits

theorem Kept.next_load_error (h : Kept bound acc pot clean s) {objects : List Object} {epoch : ℕ}
    (hload : s.threads.load thread = some (.load objects epoch)) :
    Kept bound acc pot clean (s.goto thread (.install objects epoch none)) := by
  have hpromise := h.promises thread _ hload
  refine h.moveIdle (moves_goto s thread (.install objects epoch none)) ?_ ?_ ?_ h.books.measuring
    rfl rfl rfl rfl rfl rfl
  · intro pc hpc
    rw [hload] at hpc
    cases hpc
    exact ⟨rfl, nofun⟩
  · intro pc hpc
    cases hpc
    exact ⟨rfl, hpromise, nofun⟩
  · rw [hload]
    simp [Pc.loads]

theorem Kept.next_install_stale (h : Kept bound acc pot clean s) {objects : List Object}
    {epoch : ℕ} {result : Option ℤ} {new : Option Pc} {m' : GoMap ℕ Pc} {b' : Bucket}
    (hload : s.threads.load thread = some (.install objects epoch result))
    (hm : Moves s.threads m' thread new) (hnew : ∀ pc, new = some pc → pc = .ready objects)
    (hloading : b'.loading = false) (hpaths : b'.paths = s.bucket.paths)
    (hactive : b'.active = s.bucket.active) (hused : b'.used = s.bucket.used)
    (hreserved : b'.reserved = s.bucket.reserved) (hepoch : b'.epoch = s.bucket.epoch)
    (hinitialized : b'.initialized = s.bucket.initialized) :
    Kept bound acc pot clean { s with bucket := b', threads := m' } := by
  have hvalid := (h.promises thread _ hload).1
  have hwas := (h.books.of_loader hload rfl).1
  refine h.moveIdle hm ?_ ?_ ?_ ?_ hpaths hactive hused hreserved hepoch hinitialized
  · intro pc hpc
    rw [hload] at hpc
    cases hpc
    exact ⟨rfl, nofun⟩
  · intro pc hpc
    rw [hnew pc hpc]
    exact ⟨rfl, hvalid, nofun⟩
  · have hzero : new.elim 0 Pc.loads = 0 := by
      cases new with
      | none => rfl
      | some pc =>
        rw [Option.elim_some, hnew pc rfl]
        rfl
    rw [hload, hwas, hloading, hzero]
    rfl
  · intro hb
    rw [hloading] at hb
    cases hb

theorem Books.none_reserved {m : GoMap ℕ Pc} {b : Bucket} (h : Books m b) (hactive : b.active = 0) :
    b.reserved = 0 ∧ ∀ path, changeAt m path = 0 := by
  have hzero : ∀ f : Pc → ℤ, (∀ pc : Pc, pc.activity = 0 → f pc = 0) →
      GoMap.sum (fun _ => f) m = 0 := by
    intro f hf
    apply List.sum_eq_zero
    intro x hx
    obtain ⟨e, he, rfl⟩ := List.mem_map.mp hx
    exact hf e.2 (h.idle hactive ((GoMap.mem_entries_iff m e.1 e.2).mp he))
  constructor
  · rw [h.reserved]
    apply hzero
    intro pc hpc
    cases pc <;> simp [Pc.activity, Pc.reserved] at hpc ⊢
  · intro path
    apply hzero
    intro pc hpc
    cases pc <;> simp [Pc.activity, Pc.change] at hpc ⊢

theorem Kept.next_install_ok (h : Kept bound acc pot clean s) {objects : List Object} {used : ℤ}
    {b' : Bucket} (hload : s.threads.load thread =
      some (.install objects s.bucket.epoch (some used)))
    (hloading : b'.loading = false) (hpaths : b'.paths = s.bucket.paths)
    (hactive : b'.active = s.bucket.active) (hused : b'.used = used)
    (hreserved : b'.reserved = s.bucket.reserved) (hepoch : b'.epoch = s.bucket.epoch) :
    Kept bound acc pot clean ({ s with bucket := b' }.goto thread (.ready objects)) := by
  obtain ⟨hwas, -, hidle, hloaders⟩ := h.books.of_loader hload rfl
  have hsnap := h.snapshot thread objects s.bucket.epoch used hload
  have hvalid := (h.promises thread _ hload).1
  have hm : Moves s.threads ({ s with bucket := b' }.goto thread (.ready objects)).threads thread
      (some (.ready objects)) := moves_goto { s with bucket := b' } thread (.ready objects)
  have hbooks : Books ({ s with bucket := b' }.goto thread (.ready objects)).threads b' := by
    apply h.books.move hm
    · intro t pc _ hpc o ho
      rw [hpaths]
      exact h.books.locked t pc hpc o ho
    · intro pc hpc o ho
      cases hpc
      cases ho
    · rw [hload, hactive]
      simp [Pc.activity]
    · rw [hload, hwas, hloading]
      rfl
    · intro hb
      rw [hloading] at hb
      cases hb
    · rw [hload, hreserved]
      simp [Pc.reserved]
  have hnone := hbooks.none_reserved (hactive.trans hidle)
  constructor
  · exact hbooks
  · intro t pc hpc
    rcases hm.cases_some hpc with rfl | ⟨_, hpc'⟩
    · exact hvalid
    · exact (h.promises t pc hpc').of_idle (h.books.idle hidle hpc') (le_of_eq hepoch.symm)
  · intro t objects' epoch' used' hpc
    rcases hm.cases_some hpc with heq | ⟨ht, hpc'⟩
    · cases heq
    · have hzero := hloaders t _ ht hpc'
      cases hzero
  · intro _
    show b'.used = _ ∧ b'.used + b'.reserved ≤ _ ∧ _
    rw [hnone.1, hused, add_zero]
    exact ⟨hsnap.total, hsnap.le_bound, hsnap.nonneg⟩
  · intro _ path
    have hpos := growthAt_nonneg ({ s with bucket := b' }.goto thread (.ready objects)).threads path
    have hle := hsnap.size_le path
    show s.statSize path ≤ _
    omega
  · intro _ hclean path
    rw [hnone.2, add_zero]
    exact hsnap.exact_size hclean path
  · intro _ hq
    refine hsnap.clean rfl (quiet_of_moves hm ?_ hq)
    rw [hload]
    intro hdeleted
    cases hdeleted
  · exact h.pot_total
  · exact h.covered
  · intro t pc hpc e he
    rcases hm.cases_some hpc with rfl | ⟨_, hpc'⟩
    · cases he
    · have he' : e ∈ pc.claims s.bucket.epoch := by
        rw [← hepoch]
        exact he
      exact h.claimed t pc hpc' e he'
  · exact h.fits

theorem Kept.next_install (h : Kept bound acc pot clean s) :
    Kept bound acc pot clean (s.next limit (.install thread)) := by
  unfold System.next
  dsimp only
  split
  · rename_i objects epoch result hload
    cases result with
    | none =>
      exact h.next_install_stale hload (moves_leave s thread) nofun rfl rfl rfl rfl rfl rfl rfl
    | some used =>
      simp only [Option.isSome_some, if_true, Bucket.install]
      split_ifs with hepoch
      · rw [← hepoch] at hload
        exact h.next_install_ok hload rfl rfl rfl rfl rfl rfl
      · refine h.next_install_stale hload (moves_goto s thread (.ready objects)) ?_ rfl rfl rfl rfl
          rfl rfl rfl
        intro pc hpc
        exact (Option.some.inj hpc).symm
  · exact h

theorem Kept.next_load (h : Kept bound acc pot clean s) (fails : Bool) :
    ∃ acc' clean', Kept bound acc' pot clean' (s.next limit (.load thread fails)) := by
  unfold System.next
  dsimp only
  split
  · rename_i objects epoch hload
    cases fails with
    | true => exact ⟨acc, clean, h.next_load_error hload⟩
    | false =>
      have hpos : 0 ≤ s.bytes := by
        apply Ledger.total_nonneg
        intro path
        rw [Ledger.balance_ofMap]
        exact Ledger.amount_nonneg s.stored path
      have hloaded : loaded (some s.bytes) = some s.bytes := by
        unfold loaded
        rw [Option.filter_some_pos (by exact decide_eq_true hpos)]
      simp only [Bool.false_eq_true, if_false, hloaded]
      exact ⟨_, _, h.next_load_ok hload⟩
  · exact ⟨acc, clean, h⟩

end RenoP.Capacity
