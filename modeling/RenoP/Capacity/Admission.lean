import RenoP.Capacity.Steps

/-!
# Locked paths and the admission

The steps of `Reserve` from the lock of its paths to the reservation.
-/

namespace RenoP.Capacity

open RenoP.Database (Text)
open GoMap (Moves)

variable {bound : ℤ} {acc pot : List (Text × ℤ)} {clean : Prop} {s : System} {thread : ℕ}
  {limit : Int64}

theorem load_lock (objects : List Object) (path : Text) : ∀ paths : GoMap Text Bool,
    (objects.foldl (fun paths object => paths.store object.path true) paths).load path =
      if path ∈ objects.map (·.path) then some true else paths.load path := by
  induction objects with
  | nil =>
    intro paths
    rw [List.map_nil, if_neg List.not_mem_nil]
    rfl
  | cons o objects ih =>
    intro paths
    rw [List.foldl_cons, ih, GoMap.load_store, List.map_cons]
    by_cases hmem : path ∈ objects.map (·.path)
    · rw [if_pos hmem, if_pos (List.mem_cons_of_mem _ hmem)]
    · rw [if_neg hmem]
      by_cases hpath : path = o.path
      · rw [if_pos hpath, if_pos (List.mem_cons.mpr (Or.inl hpath))]
      · rw [if_neg hpath, if_neg]
        intro hcons
        rcases List.mem_cons.mp hcons with heq | hrest
        · exact hpath heq
        · exact hmem hrest

theorem load_unlock (objects : List Object) (path : Text) : ∀ paths : GoMap Text Bool,
    (objects.foldl (fun paths object => paths.delete object.path) paths).load path =
      if path ∈ objects.map (·.path) then none else paths.load path := by
  intro paths
  have hfold : objects.foldl (fun paths object => paths.delete object.path) paths =
      (objects.map (·.path)).foldl GoMap.delete paths := by
    rw [List.foldl_map]
  rw [hfold, GoMap.load_foldl_delete]
  split_ifs
  · rfl
  · rfl

theorem validObjects_cases {objects : List Object} (h : validObjects objects = true) :
    (∀ o ∈ objects, 0 ≤ o.size.toInt) ∧ (objects.map (·.path)).Nodup := by
  unfold validObjects at h
  simp only [Bool.and_eq_true, List.all_eq_true, decide_eq_true_eq] at h
  exact ⟨fun o ho => (h.1.2 o ho).2, h.2⟩

theorem Kept.next_lock (h : Kept bound acc pot clean s) :
    Kept bound acc pot clean (s.next limit (.lock thread)) := by
  unfold System.next
  dsimp only
  split
  · rename_i objects hload
    have hvalid : validObjects objects = true := h.promises thread _ hload
    have hready : Kept bound acc pot clean (s.goto thread (.ready objects)) := by
      apply h.wander (moves_goto s thread (.ready objects))
      · intro pc hpc
        rw [hload] at hpc
        cases hpc
        rfl
      · intro pc hpc
        cases hpc
        exact ⟨rfl, hvalid⟩
    unfold Bucket.lock
    split_ifs with hinitialized hbusy
    · exact hready
    · exact hready
    · have hinit : s.bucket.initialized = true := by
        cases hb : s.bucket.initialized with
        | true => rfl
        | false =>
          rw [hb] at hinitialized
          exact absurd rfl hinitialized
      have hnotLoading : ¬s.bucket.loading = true := by
        intro hb
        rw [(h.books.measuring hb).1] at hinit
        cases hinit
      -- a path that another thread has locked is busy
      have hfree : ∀ o ∈ objects, ∀ t pc', s.threads.load t = some pc' → ∀ o' ∈ pc'.objects,
          o.path ≠ o'.path := by
        intro o ho t pc' hload' o' ho' heq
        apply hbusy
        rw [List.any_eq_true]
        refine ⟨o, ho, ?_⟩
        rw [heq, h.books.locked t pc' hload' o' ho']
        rfl
      have hm := moves_goto s thread (.stat [] objects s.bucket.epoch .zero)
      refine h.move hm ?_ rfl rfl rfl rfl (fun _ => Or.inl hinit) ?_ ?_ ?_
      · apply h.books.move hm
        · intro t pc _ hpc o ho
          dsimp only
          rw [load_lock]
          split_ifs
          · rfl
          · exact h.books.locked t pc hpc o ho
        · intro pc hpc o ho
          cases hpc
          have hmem : o ∈ objects := ho
          constructor
          · dsimp only
            rw [load_lock, if_pos (List.mem_map_of_mem hmem)]
          · intro t pc' _ hload' o' ho'
            exact hfree o hmem t pc' hload' o' ho'
        · rw [hload]
          simp [Pc.activity]
        · rw [hload]
          simp [Pc.loads]
        · intro hb
          exact absurd hb hnotLoading
        · rw [hload]
          simp [Pc.reserved]
      · rw [hload]
        intro hdeleted
        cases hdeleted
      · intro pc hpc
        rw [hload] at hpc
        cases hpc
        exact ⟨rfl, rfl⟩
      · intro pc hpc
        cases hpc
        have hnone : ∀ (p : Measure → Prop), ∀ e ∈ ([] : List Measure), p e := by
          intro p e he
          cases he
        refine ⟨⟨⟨hvalid, Nat.le_refl _, fun _ => hinit, hnone _, hnone _, fun _ => hnone _,
          fun _ _ => hnone _⟩, Adds.nil⟩, rfl, rfl, ?_, ?_⟩
        · intro objects' epoch used hinstall
          cases hinstall
        · intro e he
          simp [Pc.claims] at he
  · exact h

theorem Kept.moveLocked (h : Kept bound acc pot clean s) {old new : Pc}
    (hload : s.threads.load thread = some old)
    (hold : old.activity = 1 ∧ old.loads = 0 ∧ old.reserved = 0 ∧ old.growth = [] ∧
      old.change = [] ∧ old ≠ .deleted)
    (hnew : new.activity = 1 ∧ new.loads = 0 ∧ new.reserved = 0 ∧ new.growth = [] ∧
      new.change = [] ∧ ∀ objects epoch used, new ≠ .install objects epoch (some used))
    (hobjects : new.objects = old.objects) (hok : PcOk (s.view acc clean) new)
    (hclaims : ∀ e ∈ new.claims s.bucket.epoch, e.2 ≤ Ledger.balance pot e.1) :
    Kept bound acc pot clean (s.goto thread new) := by
  have hm := moves_goto s thread new
  refine h.move hm ?_ rfl rfl rfl rfl (fun hpos => Or.inr hpos) ?_ ?_ ?_
  · apply h.books.move hm
    · intro t pc _ hpc o ho
      exact h.books.locked t pc hpc o ho
    · intro pc hpc o ho
      cases hpc
      rw [hobjects] at ho
      refine ⟨h.books.locked thread old hload o ho, ?_⟩
      intro t pc' ht hload' o' ho'
      exact h.books.apart thread t old pc' ht.symm hload hload' o ho o' ho'
    · rw [hload, Option.elim_some, Option.elim_some, hold.1, hnew.1]
      omega
    · rw [hload, Option.elim_some, Option.elim_some, hold.2.1, hnew.2.1]
      omega
    · exact h.books.measuring
    · rw [hload, Option.elim_some, Option.elim_some, hold.2.2.1, hnew.2.2.1]
      omega
  · rw [hload]
    intro heq
    exact hold.2.2.2.2.2 (Option.some.inj heq)
  · intro pc hpc
    rw [hload] at hpc
    cases hpc
    exact ⟨hold.2.2.2.1, hold.2.2.2.2.1⟩
  · intro pc hpc
    cases hpc
    exact ⟨hok, hnew.2.2.2.1, hnew.2.2.2.2.1, hnew.2.2.2.2.2, hclaims⟩

theorem Kept.reads_claimed (h : Kept bound acc pot clean s) {pc : Pc} (done : List Measure)
    (epoch : ℕ) (hload : s.threads.load thread = some pc)
    (hpc : pc.claims s.bucket.epoch =
      if epoch = s.bucket.epoch then done.map fun e => (e.path, e.2) else []) :
    epoch = s.bucket.epoch → ∀ e ∈ done, e.2 ≤ Ledger.balance pot e.path := by
  intro hepoch e he
  apply h.claimed thread pc hload (e.path, e.2)
  rw [hpc, if_pos hepoch]
  exact List.mem_map_of_mem he

theorem Kept.statNext (h : Kept bound acc pot clean s) (hbound : bound ≤ maxInt64)
    {done : List Measure} {object : Object} {rest : List Object} {epoch : ℕ} {m : Measured}
    (hload : s.threads.load thread = some (.stat done (object :: rest) epoch m)) (fails : Bool) :
    Kept bound acc pot clean (s.statNext thread done object rest epoch m fails) := by
  obtain ⟨hreads, hadds⟩ := h.promises thread _ hload
  have hmem : object ∈ done.map Prod.fst ++ object :: rest :=
    List.mem_append_right _ (List.mem_cons_self ..)
  have hclaimed := h.reads_claimed done epoch hload rfl
  have hfail : Kept bound acc pot clean
      (s.goto thread (.grant done (object :: rest) epoch none)) := by
    refine h.moveLocked hload ⟨rfl, rfl, rfl, rfl, rfl, nofun⟩ ⟨rfl, rfl, rfl, rfl, rfl, nofun⟩ rfl
      ⟨hreads, nofun⟩ ?_
    exact fun e he => h.claimed thread _ hload e he
  unfold System.statNext
  cases fails with
  | true => exact hfail
  | false =>
    have hsize : 0 ≤ s.statSize object.path ∧ s.statSize object.path ≤ maxInt64 :=
      ⟨Ledger.amount_nonneg s.stored object.path, Int.le_trans (h.size_le object.path) hbound⟩
    have hobject := (validObjects_cases hreads.valid).1 object hmem
    simp only [Bool.false_eq_true, if_false]
    rcases statObject_cases hadds hobject hsize with hnone | ⟨m', hsome, hadds'⟩
    · rw [hnone]
      exact hfail
    · rw [hsome]
      have hlist : (done ++ [(object, s.statSize object.path)]).map Prod.fst ++ rest =
          done.map Prod.fst ++ object :: rest := by simp
      have hlast : ∀ {p : Measure → Prop}, (∀ e ∈ done, p e) →
          p (object, s.statSize object.path) →
          ∀ e ∈ done ++ [(object, s.statSize object.path)], p e := by
        intro p hdone hobj e he
        rcases List.mem_append.mp he with hin | hin
        · exact hdone e hin
        · rw [List.mem_singleton.mp hin]
          exact hobj
      have hgrowth := h.books.growthAt_eq hload hmem
      have hchange := h.books.changeAt_eq hload hmem
      refine h.moveLocked hload ⟨rfl, rfl, rfl, rfl, rfl, nofun⟩ ⟨rfl, rfl, rfl, rfl, rfl, nofun⟩
        hlist ⟨⟨?_, hreads.epoch_le, hreads.initialized, ?_, ?_, ?_, ?_⟩, hadds'⟩ ?_
      · rw [hlist]
        exact hreads.valid
      · exact hlast hreads.nonneg hsize.1
      · exact hlast hreads.size_le (Int.le_refl _)
      · intro hepoch
        apply hlast (hreads.le_acc hepoch)
        have hle := h.grown (hreads.initialized hepoch) object.path
        rw [hgrowth, show Pc.growth (.stat done (object :: rest) epoch m) = [] from rfl,
          Ledger.balance_nil, add_zero] at hle
        exact hle
      · intro hepoch hclean
        apply hlast (hreads.exact_acc hepoch hclean)
        have heq := h.exact_used (hreads.initialized hepoch) hclean object.path
        rw [hchange, show Pc.change (.stat done (object :: rest) epoch m) = [] from rfl,
          Ledger.balance_nil, add_zero] at heq
        exact heq
      · intro e he
        simp only [Pc.claims] at he
        split_ifs at he with hepoch
        · obtain ⟨e', he', rfl⟩ := List.mem_map.mp he
          exact hlast (hclaimed hepoch) (h.covered object.path) e' he'
        · cases he

theorem Kept.next_stat (h : Kept bound acc pot clean s) (hbound : bound ≤ maxInt64)
    (fails : Bool) : Kept bound acc pot clean (s.next limit (.stat thread fails)) := by
  unfold System.next
  dsimp only
  split
  · exact h.statNext hbound ‹_› fails
  · exact h

theorem Kept.next_statEnd (h : Kept bound acc pot clean s) (cancelled : Bool) :
    Kept bound acc pot clean (s.next limit (.statEnd thread cancelled)) := by
  unfold System.next
  dsimp only
  split
  · rename_i done epoch m hload
    obtain ⟨hreads, hadds⟩ := h.promises thread _ hload
    refine h.moveLocked hload ⟨rfl, rfl, rfl, rfl, rfl, nofun⟩ ⟨rfl, rfl, rfl, rfl, rfl, nofun⟩ rfl
      ⟨hreads, ?_⟩ ?_
    · intro m' hm'
      cases cancelled with
      | true => cases hm'
      | false =>
        cases hm'
        exact ⟨rfl, hadds⟩
    · exact fun e he => h.claimed thread _ hload e he
  · exact h

theorem Kept.unlock (h : Kept bound acc pot clean s) {old : Pc} {new : Option Pc}
    {m' : GoMap ℕ Pc} (hload : s.threads.load thread = some old)
    (hold : old.activity = 1 ∧ old.loads = 0 ∧ old.reserved = 0 ∧ old.growth = [] ∧
      old.change = [] ∧ old ≠ .deleted) (hm : Moves s.threads m' thread new)
    (hnew : ∀ pc, new = some pc → pc.waits = true ∧ PcOk (s.view acc clean) pc) :
    Kept bound acc pot clean { s with bucket := s.bucket.unlock old.objects, threads := m' } := by
  have hwaits : ∀ pc : Pc, pc.waits = true → pc.objects = [] ∧ pc.activity = 0 ∧ pc.loads = 0 ∧
      pc.reserved = 0 ∧ pc.growth = [] ∧ pc.change = [] ∧
      (∀ objects epoch used, pc ≠ .install objects epoch (some used)) ∧
      ∀ epoch, pc.claims epoch = [] := by
    intro pc hpc
    cases pc <;> simp [Pc.waits, Pc.objects, Pc.activity, Pc.loads, Pc.reserved, Pc.growth,
      Pc.change, Pc.claims] at hpc ⊢
  have hzero : ∀ {f : Pc → ℤ}, (∀ pc : Pc, pc.waits = true → f pc = 0) → new.elim 0 f = 0 := by
    intro f hf
    cases new with
    | none => rfl
    | some pc => exact hf pc (hnew pc rfl).1
  have hactive := h.books.active_pos hload hold.1
  have hnotLoading : ¬s.bucket.loading = true := by
    intro hb
    have hidle := (h.books.measuring hb).2
    omega
  refine h.move hm ?_ rfl rfl rfl rfl (fun _ => Or.inr hactive) ?_ ?_ ?_
  · apply h.books.move hm
    · intro t pc ht hpc o ho
      show (List.foldl _ _ _ : GoMap Text Bool).load o.path = _
      rw [load_unlock, if_neg]
      · exact h.books.locked t pc hpc o ho
      · intro hmem
        obtain ⟨o', ho', heq⟩ := List.mem_map.mp hmem
        exact h.books.apart thread t old pc ht.symm hload hpc o' ho' o ho heq
    · intro pc hpc o ho
      rw [(hwaits pc (hnew pc hpc).1).1] at ho
      cases ho
    · rw [hload, Option.elim_some, hold.1, hzero fun pc hpc => (hwaits pc hpc).2.1, add_zero]
      rfl
    · rw [hload, Option.elim_some, hold.2.1, hzero fun pc hpc => (hwaits pc hpc).2.2.1]
      show (if s.bucket.loading then (1 : ℤ) else 0) = (if s.bucket.loading then 1 else 0) - 0 + 0
      omega
    · intro hb
      exact absurd hb hnotLoading
    · rw [hload, Option.elim_some, hold.2.2.1, hzero fun pc hpc => (hwaits pc hpc).2.2.2.1]
      show s.bucket.reserved = s.bucket.reserved - 0 + 0
      omega
  · rw [hload]
    intro heq
    exact hold.2.2.2.2.2 (Option.some.inj heq)
  · intro pc hpc
    rw [hload] at hpc
    cases hpc
    exact ⟨hold.2.2.2.1, hold.2.2.2.2.1⟩
  · intro pc hpc
    obtain ⟨hpc', hok⟩ := hnew pc hpc
    obtain ⟨-, -, -, -, hgrowth, hchange, hinstall, hclaims⟩ := hwaits pc hpc'
    refine ⟨hok, hgrowth, hchange, hinstall, ?_⟩
    intro e he
    rw [hclaims] at he
    cases he

theorem growths_nodup {done : List Measure} (h : validObjects (done.map Prod.fst) = true) :
    ((growths done).map Prod.fst).Nodup := by
  have hnodup := (validObjects_cases h).2
  unfold growths
  rw [List.map_map] at hnodup ⊢
  exact hnodup

theorem balance_growths {done : List Measure} (h : validObjects (done.map Prod.fst) = true)
    {e : Measure} (he : e ∈ done) :
    Ledger.balance (growths done) e.path = max (e.size - e.2) 0 :=
  Ledger.balance_of_mem (growths_nodup h) (e := (e.path, max (e.size - e.2) 0))
    (List.mem_map_of_mem he)

theorem Kept.used_nonneg (h : Kept bound acc pot clean s)
    (hcounted : s.bucket.initialized = true ∨ 0 < s.bucket.active) : 0 ≤ s.bucket.used := by
  obtain ⟨hused, -, hnonneg⟩ := h.counted hcounted
  rw [hused]
  exact Ledger.total_nonneg hnonneg

theorem reserved_nonneg {v : View} {pc : Pc} (h : PcOk v pc) : 0 ≤ pc.reserved := by
  cases pc with
  | held done delta reserved written =>
    show 0 ≤ reserved
    rw [h.2.2]
    exact total_growths_nonneg done
  | ready _ | load _ _ | install _ _ _ | lock _ | stat _ _ _ _ | grant _ _ _ _ | deleted =>
    exact Int.le_refl 0

theorem Kept.reserved_nonneg (h : Kept bound acc pot clean s) : 0 ≤ s.bucket.reserved := by
  rw [h.books.reserved]
  exact GoMap.sum_nonneg fun t pc hload => RenoP.Capacity.reserved_nonneg (h.promises t pc hload)

theorem exceeds_cases {b : Bucket} {m : Measured} (hused : 0 ≤ b.used) (hreserved : 0 ≤ b.reserved)
    (hm : 0 ≤ m.reserved) :
    b.exceeds limit.toInt m = some true ∨ b.exceeds limit.toInt m = some false ∧
      (m.reserved = 0 ∨ b.used + b.reserved + m.reserved ≤ limit.toInt) := by
  have hlimit := Int64.toInt_lt limit
  unfold Bucket.exceeds
  by_cases hzero : m.reserved ≤ 0
  · right
    rw [if_pos hzero]
    exact ⟨rfl, Or.inl (by omega)⟩
  rw [if_neg hzero]
  by_cases hover : b.used > limit.toInt
  · left
    rw [if_pos hover]
    rfl
  rw [if_neg hover, checked_of_fits (by unfold minInt64 maxInt64; omega)]
  simp only [Option.bind_eq_bind, Option.bind_some]
  by_cases hfull : b.reserved > limit.toInt - b.used
  · left
    rw [if_pos hfull]
    rfl
  rw [if_neg hfull, checked_of_fits (by unfold minInt64 maxInt64; omega)]
  simp only [Option.bind_some]
  by_cases hroom : m.reserved > limit.toInt - b.used - b.reserved
  · left
    simp [hroom]
  · right
    simp only [hroom, decide_false]
    exact ⟨rfl, Or.inr (by omega)⟩

def System.admitted (s : System) (thread : ℕ) (done : List Measure) (m : Measured) : System :=
  { s with bucket := { s.bucket with reserved := s.bucket.reserved + m.reserved } }.goto thread
    (.held done m.delta m.reserved [])

theorem Kept.admit_covered (h : Kept bound acc pot clean s) {pot' : List (Text × ℤ)}
    {done : List Measure} {m : Measured}
    (hload : s.threads.load thread = some (.grant done [] s.bucket.epoch (some m)))
    (hroom : s.bucket.used + s.bucket.reserved + m.reserved ≤ bound)
    (hpot_total : Ledger.total pot' ≤ bound)
    (hcovered : ∀ path, s.statSize path ≤ Ledger.balance pot' path)
    (hclaimed : ∀ t pc, (s.admitted thread done m).threads.load t = some pc →
      ∀ e ∈ pc.claims s.bucket.epoch, e.2 ≤ Ledger.balance pot' e.1) :
    Kept bound acc pot' clean (s.admitted thread done m) := by
  obtain ⟨hreads, hadds⟩ := h.promises thread _ hload
  have hadds := (hadds m rfl).2
  rw [List.append_nil] at hreads
  have hinitialized := hreads.initialized rfl
  have hactive := h.books.active_pos hload rfl
  have hm : Moves s.threads (s.admitted thread done m).threads thread
      (some (.held done m.delta m.reserved [])) := moves_goto _ thread _
  have hchange : changes (done.filter fun e => ([] : List Text).contains e.path) = [] := by
    rw [List.filter_eq_nil_iff.mpr (by simp)]
    rfl
  constructor
  · apply h.books.move hm
    · intro t pc _ hpc o ho
      exact h.books.locked t pc hpc o ho
    · intro pc hpc o ho
      cases hpc
      have ho' : o ∈ (Pc.grant done [] s.bucket.epoch (some m)).objects :=
        List.mem_append_left [] ho
      refine ⟨h.books.locked thread _ hload o ho', ?_⟩
      intro t pc' ht hload' o' ho''
      exact h.books.apart thread t _ pc' ht.symm hload hload' o ho' o' ho''
    · rw [hload]
      show s.bucket.active = s.bucket.active - 1 + 1
      omega
    · rw [hload]
      show (if s.bucket.loading then (1 : ℤ) else 0) = (if s.bucket.loading then 1 else 0) - 0 + 0
      omega
    · exact h.books.measuring
    · rw [hload]
      show s.bucket.reserved + m.reserved = s.bucket.reserved - 0 + m.reserved
      omega
  · intro t pc hpc
    rcases hm.cases_some hpc with rfl | ⟨_, hpc'⟩
    · refine ⟨⟨hreads.valid, hreads.nonneg, hreads.le_acc rfl, ?_, ?_⟩, hadds.delta,
        hadds.reserved⟩
      · intro e he
        rw [if_neg List.not_mem_nil]
        exact hreads.size_le e he
      · intro _ hclean
        exact hreads.exact_acc rfl hclean
    · exact h.promises t pc hpc'
  · intro t objects epoch used hpc
    rcases hm.cases_some hpc with heq | ⟨_, hpc'⟩
    · cases heq
    · have hzero := h.books.no_loader hactive hpc'
      cases hzero
  · intro _
    obtain ⟨hused, -, hnonneg⟩ := h.counted (Or.inl hinitialized)
    refine ⟨hused, ?_, hnonneg⟩
    show s.bucket.used + (s.bucket.reserved + m.reserved) ≤ bound
    omega
  · intro _ path
    have hle := h.grown hinitialized path
    have hpos := growth_nonneg (.held done m.delta m.reserved []) path
    rw [growthAt_move hm, hload]
    show s.statSize path ≤ Ledger.balance acc path + (growthAt s.threads path - 0 + _)
    rw [Option.elim_some]
    omega
  · intro _ hclean path
    rw [changeAt_move hm, hload]
    show s.statSize path = Ledger.balance acc path + (changeAt s.threads path - 0 +
      Ledger.balance (changes (done.filter fun e => ([] : List Text).contains e.path)) path)
    rw [hchange, Ledger.balance_nil, sub_zero, add_zero]
    exact h.exact_used hinitialized hclean path
  · intro _ hq
    apply h.cleanly hinitialized
    refine quiet_of_moves hm ?_ hq
    rw [hload]
    intro hdeleted
    cases hdeleted
  · exact hpot_total
  · exact hcovered
  · exact hclaimed
  · exact h.fits

theorem Kept.admit_still (h : Kept bound acc pot clean s) {done : List Measure} {m : Measured}
    (hload : s.threads.load thread = some (.grant done [] s.bucket.epoch (some m)))
    (hzero : m.reserved = 0) : Kept bound acc pot clean (s.admitted thread done m) := by
  obtain ⟨hreads, hadds⟩ := h.promises thread _ hload
  have hadds := (hadds m rfl).2
  rw [List.append_nil] at hreads
  have hcounted := h.counted (Or.inl (hreads.initialized rfl))
  have hclaimed := h.reads_claimed done s.bucket.epoch hload rfl
  have hnone : ∀ e ∈ done, e.size ≤ e.2 := by
    intro e he
    have hle := Ledger.balance_le_total (Ledger.balance_nonneg (@growths_nonneg done)) e.path
    rw [balance_growths hreads.valid he, ← hadds.reserved, hzero] at hle
    omega
  have hm : Moves s.threads (s.admitted thread done m).threads thread
      (some (.held done m.delta m.reserved [])) := moves_goto _ thread _
  apply h.admit_covered hload
  · rw [hzero, add_zero]
    exact hcounted.2.1
  · exact h.pot_total
  · exact h.covered
  · intro t pc hpc e he
    rw [hm.load] at hpc
    split_ifs at hpc with ht
    · cases hpc
      obtain ⟨e', he', rfl⟩ := List.mem_map.mp he
      have hsize := hnone e' he'
      have hle := hclaimed rfl e' he'
      show max e'.2 e'.size ≤ Ledger.balance pot e'.path
      omega
    · exact h.claimed t pc hpc e he

theorem Kept.admit_growth (h : Kept bound acc pot clean s) {done : List Measure} {m : Measured}
    (hload : s.threads.load thread = some (.grant done [] s.bucket.epoch (some m)))
    (hroom : s.bucket.used + s.bucket.reserved + m.reserved ≤ bound) :
    ∃ pot', Kept bound acc pot' clean (s.admitted thread done m) := by
  obtain ⟨hreads, hadds⟩ := h.promises thread _ hload
  have hadds := (hadds m rfl).2
  rw [List.append_nil] at hreads
  have hinitialized := hreads.initialized rfl
  obtain ⟨hused, -, -⟩ := h.counted (Or.inl hinitialized)
  have hm : Moves s.threads (s.admitted thread done m).threads thread
      (some (.held done m.delta m.reserved [])) := moves_goto _ thread _
  have hbalance : ∀ path, Ledger.balance
      (acc ++ Ledger.ofParties Pc.growth (s.admitted thread done m).threads) path =
      Ledger.balance acc path + growthAt (s.admitted thread done m).threads path := by
    intro path
    rw [Ledger.balance_append, Ledger.balance_ofParties]
    rfl
  have hgrowth : ∀ path, growthAt (s.admitted thread done m).threads path =
      growthAt s.threads path + Ledger.balance (growths done) path := by
    intro path
    rw [growthAt_move hm, hload]
    show growthAt s.threads path - 0 + Ledger.balance (growths done) path = _
    omega
  have hgrew : ∀ path, 0 ≤ Ledger.balance (growths done) path :=
    Ledger.balance_nonneg growths_nonneg
  refine ⟨acc ++ Ledger.ofParties Pc.growth (s.admitted thread done m).threads, ?_⟩
  apply h.admit_covered hload hroom
  · have hle : Ledger.total (Ledger.ofParties Pc.growth (s.admitted thread done m).threads) ≤
        GoMap.sum (fun _ => Pc.reserved) (s.admitted thread done m).threads := by
      rw [Ledger.total_ofParties]
      apply GoMap.sum_le_sum
      intro t pc hpc
      have hreserved : ∀ pc : Pc, pc.growth = [] → 0 ≤ pc.reserved →
          Ledger.total pc.growth ≤ pc.reserved := by
        intro pc hnil hpos
        rw [hnil]
        exact hpos
      rw [hm.load] at hpc
      split_ifs at hpc with ht
      · cases hpc
        exact le_of_eq hadds.reserved.symm
      · have hok := h.promises t pc hpc
        cases pc with
        | held done' delta reserved written => exact le_of_eq hok.2.2.symm
        | ready _ | load _ _ | install _ _ _ | lock _ | stat _ _ _ _ | grant _ _ _ _ | deleted =>
          exact hreserved _ rfl (Int.le_refl 0)
    have hsum : GoMap.sum (fun _ => Pc.reserved) (s.admitted thread done m).threads =
        s.bucket.reserved + m.reserved := by
      rw [hm.sum, hload, ← h.books.reserved]
      show s.bucket.reserved - 0 + m.reserved = _
      omega
    rw [Ledger.total_append, ← hused]
    omega
  · intro path
    have hle := h.grown hinitialized path
    have hpos := hgrew path
    rw [hbalance, hgrowth]
    omega
  · intro t pc hpc e he
    rw [hbalance, hgrowth]
    have hpos := growthAt_nonneg s.threads e.1
    have hpos' := hgrew e.1
    have hreadsClaim : ∀ {objects : List Object} {done' : List Measure} {epoch : ℕ},
        Reads (s.view acc clean) objects done' epoch →
        e ∈ (if epoch = s.bucket.epoch then done'.map fun e => (e.path, e.2) else []) →
          e.2 ≤ Ledger.balance acc e.1 := by
      intro objects done' epoch hreads' he'
      split_ifs at he' with hepoch
      · obtain ⟨e', hmem, rfl⟩ := List.mem_map.mp he'
        exact hreads'.le_acc hepoch e' hmem
      · cases he'
    rw [hm.load] at hpc
    split_ifs at hpc with ht
    · cases hpc
      obtain ⟨e', he', rfl⟩ := List.mem_map.mp he
      have hacc : e'.2 ≤ Ledger.balance acc e'.path := hreads.le_acc rfl e' he'
      have hown := balance_growths hreads.valid he'
      dsimp only at hpos ⊢
      omega
    · have hok := h.promises t pc hpc
      cases pc with
      | held done' delta reserved written =>
        obtain ⟨e', he', rfl⟩ := List.mem_map.mp he
        have hacc : e'.2 ≤ Ledger.balance acc e'.path := hok.1.le_acc e' he'
        have hown := balance_growths hok.1.valid he'
        have hat := h.books.growthAt_eq hpc (List.mem_map_of_mem he')
        have hat' : growthAt s.threads e'.path = Ledger.balance (growths done') e'.path := hat
        dsimp only at hpos hpos' ⊢
        omega
      | stat done' rest epoch m' =>
        have hacc := hreadsClaim hok.1 he
        omega
      | grant done' rest epoch result =>
        have hacc := hreadsClaim hok.1 he
        omega
      | ready _ | load _ _ | install _ _ _ | lock _ | deleted => cases he

theorem Kept.next_admit (h : Kept bound acc pot clean s) (hbound : bound ≤ maxInt64)
    (hlimit : limit.toInt ≤ bound) :
    ∃ pot', Kept bound acc pot' clean (s.next limit (.grant thread)) := by
  unfold System.next
  dsimp only
  split
  swap
  · exact ⟨pot, h⟩
  rename_i done rest epoch result hload
  have hvalid := (h.promises thread _ hload).1.valid
  have hold : (Pc.grant done rest epoch result).activity = 1 ∧
      (Pc.grant done rest epoch result).loads = 0 ∧
      (Pc.grant done rest epoch result).reserved = 0 ∧
      (Pc.grant done rest epoch result).growth = [] ∧
      (Pc.grant done rest epoch result).change = [] ∧
      Pc.grant done rest epoch result ≠ .deleted := ⟨rfl, rfl, rfl, rfl, rfl, nofun⟩
  cases result with
  | none => exact ⟨pot, h.unlock hload hold (moves_leave s thread) nofun⟩
  | some m =>
    have hcompared : Kept bound acc pot clean { s with bucket := s.bucket.compare m } := by
      unfold Bucket.compare
      split_ifs
      · exact h.endEpoch rfl rfl rfl rfl rfl rfl rfl
      · exact h
    have hcases : s.bucket.compare m = s.bucket ∨ (s.bucket.compare m).initialized = false := by
      unfold Bucket.compare
      split_ifs
      · exact Or.inr rfl
      · exact Or.inl rfl
    have hload' : ({ s with bucket := s.bucket.compare m } : System).threads.load thread =
        some (.grant done rest epoch (some m)) := hload
    unfold Bucket.grant
    dsimp only
    split_ifs with hstale
    · refine ⟨pot, hcompared.unlock hload' hold (moves_goto _ thread _) ?_⟩
      intro pc hpc
      cases hpc
      exact ⟨rfl, hvalid⟩
    · rw [not_or, not_not] at hstale
      have hsame : s.bucket.compare m = s.bucket := by
        rcases hcases with heq | hno
        · exact heq
        · rw [hno] at hstale
          exact absurd rfl hstale.1
      rw [hsame] at hstale ⊢
      obtain ⟨hinit, hepoch⟩ := hstale
      rw [← hepoch] at hload
      obtain ⟨hreads, hadds⟩ := h.promises thread _ hload
      obtain ⟨hrest, hadds⟩ := hadds m rfl
      rw [hrest] at hload ⊢
      have hcounted : s.bucket.initialized = true := hreads.initialized rfl
      have hused := h.used_nonneg (Or.inl hcounted)
      have hreserved := h.reserved_nonneg
      rcases exceeds_cases hused hreserved hadds.reservedFits.1 with htrue | ⟨hfalse, hroom⟩
      · rw [htrue]
        rw [hrest] at hold
        rw [hepoch] at hload
        exact ⟨pot, h.unlock hload hold (moves_leave s thread) nofun⟩
      · rw [hfalse]
        have hroom : s.bucket.used + s.bucket.reserved + m.reserved ≤ bound := by
          have hbefore := (h.counted (Or.inl hcounted)).2.1
          omega
        have hpos := hadds.reservedFits.1
        have hfits : checked (s.bucket.reserved + m.reserved) =
            some (s.bucket.reserved + m.reserved) := by
          apply checked_of_fits
          unfold minInt64
          omega
        simp only [Option.bind_eq_bind, Option.bind_some, hfits]
        by_cases hzero : m.reserved = 0
        · exact ⟨pot, h.admit_still hload hzero⟩
        · exact h.admit_growth hload hroom

end RenoP.Capacity
