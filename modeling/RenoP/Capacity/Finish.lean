import RenoP.Capacity.Admission

/-!
# Writes, finished reservations and deletions

The steps that change the stored data or the counter.
-/

namespace RenoP.Capacity

open RenoP.Database (Text)
open GoMap (Moves)

variable {bound : ℤ} {acc pot : List (Text × ℤ)} {clean : Prop} {s : System} {thread : ℕ}
  {limit : Int64} {done : List Measure} {delta reserved : ℤ} {written : List Text}

theorem eq_of_path (h : validObjects (done.map Prod.fst) = true) {e e' : Measure} (he : e ∈ done)
    (he' : e' ∈ done) (heq : e'.path = e.path) : e' = e := by
  have hnodup := (validObjects_cases h).2
  rw [List.map_map] at hnodup
  exact List.inj_on_of_nodup_map hnodup he' he heq

theorem balance_changes_other {path : Text} (h : ∀ e ∈ done, e.path ≠ path) :
    Ledger.balance (changes done) path = 0 := by
  apply Ledger.balance_of_not_mem
  intro hmem
  obtain ⟨g, hg, rfl⟩ := List.mem_map.mp hmem
  obtain ⟨e, he, rfl⟩ := List.mem_map.mp hg
  exact h e he rfl

theorem balance_growths_other {path : Text} (h : ∀ e ∈ done, e.path ≠ path) :
    Ledger.balance (growths done) path = 0 := by
  apply Ledger.balance_of_not_mem
  intro hmem
  obtain ⟨g, hg, rfl⟩ := List.mem_map.mp hmem
  obtain ⟨e, he, rfl⟩ := List.mem_map.mp hg
  exact h e he rfl

theorem balance_changes (h : validObjects (done.map Prod.fst) = true) {e : Measure}
    (he : e ∈ done) : Ledger.balance (changes done) e.path = e.size - e.2 := by
  have hnodup : ((changes done).map Prod.fst).Nodup := by
    have hpaths := (validObjects_cases h).2
    unfold changes
    rw [List.map_map] at hpaths ⊢
    exact hpaths
  exact @Ledger.balance_of_mem Text _ _ hnodup (e.path, e.size - e.2) (List.mem_map_of_mem he)

theorem balance_written (h : validObjects (done.map Prod.fst) = true) {e : Measure} (he : e ∈ done) :
    Ledger.balance (changes (done.filter fun e => written.contains e.path)) e.path =
      if e.path ∈ written then e.size - e.2 else 0 := by
  split_ifs with hmem
  · have hin : e ∈ done.filter fun e => written.contains e.path := by
      rw [List.mem_filter, List.contains_iff_mem]
      exact ⟨he, hmem⟩
    have hnodup : ((changes (done.filter fun e => written.contains e.path)).map
        Prod.fst).Nodup := by
      have hpaths := (validObjects_cases h).2
      unfold changes
      rw [List.map_map] at hpaths ⊢
      exact hpaths.sublist (List.Sublist.map _ List.filter_sublist)
    exact @Ledger.balance_of_mem Text _ _ hnodup (e.path, e.size - e.2) (List.mem_map_of_mem hin)
  · apply balance_changes_other
    intro e' he' heq
    rw [List.mem_filter, List.contains_iff_mem, heq] at he'
    exact hmem he'.2

theorem balance_written_other {path path' : Text} (hne : path' ≠ path) :
    Ledger.balance (changes (done.filter fun e => (path :: written).contains e.path)) path' =
      Ledger.balance (changes (done.filter fun e => written.contains e.path)) path' := by
  induction done with
  | nil => rfl
  | cons e done ih =>
    have hcons : ∀ (e : Measure) (l : List Measure), Ledger.balance (changes (e :: l)) path' =
        (if e.path = path' then e.size - e.2 else 0) + Ledger.balance (changes l) path' :=
      fun e l => Ledger.balance_cons _ _ _
    simp only [List.filter_cons, List.contains_iff_mem, List.mem_cons] at ih ⊢
    by_cases heq : e.path = path
    · have hskip : e.path ≠ path' := by
        rw [heq]
        exact hne.symm
      rw [if_pos (Or.inl heq), hcons, if_neg hskip, zero_add, ih]
      split_ifs
      · rw [hcons, if_neg hskip, zero_add]
      · rfl
    · by_cases hmem : e.path ∈ written
      · rw [if_pos (Or.inr hmem), if_pos hmem, hcons, hcons, ih]
      · rw [if_neg (not_or.mpr ⟨heq, hmem⟩), if_neg hmem, ih]

theorem Kept.next_write (h : Kept bound acc pot clean s) (path : Text) :
    Kept bound acc pot clean (s.next limit (.write thread path)) := by
  unfold System.next
  dsimp only
  split
  swap
  · exact h
  rename_i done delta reserved written hload
  split
  · exact h
  rename_i e hfind
  have he : e ∈ done := List.mem_of_find?_eq_some hfind
  have hpath : e.path = path := by
    have hfound := List.find?_some hfind
    exact eq_of_beq hfound
  subst hpath
  obtain ⟨hholds, hsums⟩ := h.promises thread _ hload
  have hobject : e.1 ∈ (Pc.held done delta reserved written).objects := List.mem_map_of_mem he
  have hsize : 0 ≤ e.size := (validObjects_cases hholds.valid).1 e.1 hobject
  have hactive := h.books.active_pos hload rfl
  have hm : Moves s.threads ({ s with stored := s.stored.store e.path e.size.toNat }.goto thread
      (.held done delta reserved (e.path :: written))).threads thread
      (some (.held done delta reserved (e.path :: written))) := moves_goto _ thread _
  have hstat : ∀ p, ({ s with stored := s.stored.store e.path e.size.toNat }.goto thread
      (.held done delta reserved (e.path :: written))).statSize p =
      if p = e.path then e.size else s.statSize p := by
    intro p
    have hstore := Ledger.amount_store s.stored e.path p e.size.toNat
    rw [Int.toNat_of_nonneg hsize] at hstore
    exact hstore
  have hbooks : Books ({ s with stored := s.stored.store e.path e.size.toNat }.goto thread
      (.held done delta reserved (e.path :: written))).threads s.bucket := by
    apply h.books.move hm
    · intro t pc _ hpc o ho
      exact h.books.locked t pc hpc o ho
    · intro pc hpc o ho
      cases hpc
      refine ⟨h.books.locked thread _ hload o ho, ?_⟩
      intro t pc' ht hload' o' ho'
      exact h.books.apart thread t _ pc' ht.symm hload hload' o ho o' ho'
    · rw [hload]
      show s.bucket.active = s.bucket.active - 1 + 1
      omega
    · rw [hload]
      show (if s.bucket.loading then (1 : ℤ) else 0) = (if s.bucket.loading then 1 else 0) - 0 + 0
      omega
    · exact h.books.measuring
    · rw [hload]
      show s.bucket.reserved = s.bucket.reserved - reserved + reserved
      omega
  constructor
  · exact hbooks
  · intro t pc hpc
    rcases hm.cases_some hpc with rfl | ⟨ht, hpc'⟩
    · refine ⟨⟨hholds.valid, hholds.nonneg, hholds.le_acc, ?_, hholds.exact_acc⟩, hsums⟩
      intro e' he'
      show System.statSize _ e'.path ≤ _
      rw [hstat]
      by_cases heq : e'.path = e.path
      · rw [if_pos heq, if_pos (List.mem_cons.mpr (Or.inl heq)), eq_of_path hholds.valid he he' heq]
      · have hle := hholds.size_le e' he'
        rw [if_neg heq]
        simp only [List.mem_cons, heq, false_or]
        exact hle
    · apply (h.promises t pc hpc').later
      · intro o ho
        have hne : o.path ≠ e.path := h.books.apart t thread pc _ ht hpc' hload o ho e.1 hobject
        show System.statSize _ o.path ≤ s.statSize o.path
        rw [hstat, if_neg hne]
      · intro _ _
        rfl
      · exact Nat.le_refl _
      · exact fun _ => id
      · exact id
      · exact id
  · intro t objects epoch used hpc
    rcases hm.cases_some hpc with heq | ⟨_, hpc'⟩
    · cases heq
    · have hzero := h.books.no_loader hactive hpc'
      cases hzero
  · exact h.counted
  · intro hinit p
    have hgrowth : growthAt ({ s with stored := s.stored.store e.path e.size.toNat }.goto thread
        (.held done delta reserved (e.path :: written))).threads p = growthAt s.threads p := by
      rw [growthAt_move hm, hload]
      show growthAt s.threads p - Ledger.balance (growths done) p +
        Ledger.balance (growths done) p = _
      omega
    rw [hstat, hgrowth]
    split_ifs with hp
    · have hat : growthAt s.threads e.path = Ledger.balance (growths done) e.path :=
        h.books.growthAt_eq hload hobject
      have hacc := hholds.le_acc e he
      rw [hp, hat, balance_growths hholds.valid he]
      have hacc' : e.2 ≤ Ledger.balance acc e.path := hacc
      omega
    · exact h.grown hinit p
  · intro hinit hclean p
    rw [hstat]
    split_ifs with hp
    · have hown : ({ s with stored := s.stored.store e.path e.size.toNat }.goto thread
          (.held done delta reserved (e.path :: written))).threads.load thread =
          some (.held done delta reserved (e.path :: written)) := by
        rw [hm.load, if_pos rfl]
      have hat := hbooks.changeAt_eq hown hobject
      have hacc : e.2 = Ledger.balance acc e.path := hholds.exact_acc hinit hclean e he
      have hnew : Ledger.balance (Pc.held done delta reserved (e.path :: written)).change e.path =
          e.size - e.2 := by
        show Ledger.balance (changes (done.filter fun e' => (e.path :: written).contains e'.path))
          e.path = _
        rw [balance_written hholds.valid he, if_pos (List.mem_cons_self ..)]
      have hat' := hat.trans hnew
      rw [hp, show changeAt _ e.path = _ from hat', ← hacc]
      omega
    · rw [changeAt_move hm, hload]
      have hother := @balance_written_other done written e.path p hp
      have heq := h.exact_used hinit hclean p
      show s.statSize p = Ledger.balance acc p + (changeAt s.threads p -
        Ledger.balance (changes (done.filter fun e => written.contains e.path)) p +
        Ledger.balance (changes (done.filter fun e' => (e.path :: written).contains e'.path)) p)
      omega
  · intro hinit hq
    apply h.cleanly hinit
    refine quiet_of_moves hm ?_ hq
    rw [hload]
    intro hdeleted
    cases hdeleted
  · exact h.pot_total
  · intro p
    rw [hstat]
    split_ifs with hp
    · have hclaim := h.claimed thread _ hload (e.path, max e.2 e.size)
        (List.mem_map_of_mem (f := fun e : Measure => (e.path, max e.2 e.size)) he)
      rw [hp]
      exact Int.le_trans (Int.le_max_right _ _) hclaim
    · exact h.covered p
  · intro t pc hpc e' he'
    rcases hm.cases_some hpc with rfl | ⟨_, hpc'⟩
    · exact h.claimed thread _ hload e' he'
    · exact h.claimed t pc hpc' e' he'
  · exact h.fits

theorem Kept.finish (h : Kept bound acc pot clean s)
    (hload : s.threads.load thread = some (.held done delta reserved written))
    {acc' : List (Text × ℤ)} {b' : Bucket}
    (hpaths : b'.paths = (done.map Prod.fst).foldl (fun paths o => paths.delete o.path)
      s.bucket.paths)
    (hactive : b'.active = s.bucket.active - 1) (hloading : b'.loading = s.bucket.loading)
    (hreserved : b'.reserved = s.bucket.reserved - reserved)
    (hepoch : b'.epoch = s.bucket.epoch) (hinitialized : b'.initialized = s.bucket.initialized)
    (hused : b'.used = Ledger.total acc') (hle : b'.used + b'.reserved ≤ bound)
    (hnonneg : ∀ path, 0 ≤ Ledger.balance acc' path)
    (hother : ∀ path, (∀ e ∈ done, e.path ≠ path) →
      Ledger.balance acc' path = Ledger.balance acc path)
    (hgrown : s.bucket.initialized = true → ∀ e ∈ done,
      s.statSize e.path ≤ Ledger.balance acc' e.path)
    (hexact : s.bucket.initialized = true → clean → ∀ path, s.statSize path =
      Ledger.balance acc' path + (changeAt s.threads path -
        Ledger.balance (Pc.held done delta reserved written).change path)) :
    Kept bound acc' pot clean ({ s with bucket := b' }.leave thread) := by
  have hpositive := h.books.active_pos hload rfl
  have hm : Moves s.threads ({ s with bucket := b' }.leave thread).threads thread none :=
    moves_leave { s with bucket := b' } thread
  have happart : ∀ {t pc}, t ≠ thread → s.threads.load t = some pc → ∀ o ∈ pc.objects,
      ∀ e ∈ done, e.path ≠ o.path := by
    intro t pc ht hpc o ho e he
    exact h.books.apart thread t _ pc ht.symm hload hpc e.1 (List.mem_map_of_mem he) o ho
  have hbooks : Books ({ s with bucket := b' }.leave thread).threads b' := by
    apply h.books.move hm
    · intro t pc ht hpc o ho
      rw [hpaths, load_unlock, if_neg]
      · exact h.books.locked t pc hpc o ho
      · intro hmem
        obtain ⟨o', ho', heq⟩ := List.mem_map.mp hmem
        obtain ⟨e, he, rfl⟩ := List.mem_map.mp ho'
        exact happart ht hpc o ho e he heq
    · intros <;> contradiction
    · rw [hload, hactive]
      show s.bucket.active - 1 = s.bucket.active - 1 + 0
      omega
    · rw [hload]
      show (if b'.loading then (1 : ℤ) else 0) = (if s.bucket.loading then 1 else 0) - 0 + 0
      rw [hloading]
      omega
    · intro hb
      have hzero := (h.books.measuring (hloading ▸ hb)).2
      omega
    · rw [hload, hreserved]
      show s.bucket.reserved - reserved = s.bucket.reserved - reserved + 0
      omega
  constructor
  · exact hbooks
  · intro t pc hpc
    obtain ⟨ht, hpc'⟩ := hm.cases_none hpc
    apply (h.promises t pc hpc').later
    · intro _ _
      exact Int.le_refl _
    · intro o ho
      exact hother o.path (happart ht hpc' o ho)
    · exact le_of_eq hepoch.symm
    · intro _ hinit
      exact hinitialized.trans hinit
    · intro hinit
      exact hinitialized.symm.trans hinit
    · exact id
  · intro t objects epoch used hpc
    have hzero := h.books.no_loader hpositive (hm.cases_none hpc).2
    cases hzero
  · intro _
    exact ⟨hused, hle, hnonneg⟩
  · intro hinit path
    have hinit' : s.bucket.initialized = true := hinitialized.symm.trans hinit
    have hpos := growthAt_nonneg ({ s with bucket := b' }.leave thread).threads path
    by_cases hpath : ∃ e ∈ done, e.path = path
    · obtain ⟨e, he, rfl⟩ := hpath
      have hsize := hgrown hinit' e he
      show s.statSize e.path ≤ _
      omega
    · have hnot : ∀ e ∈ done, e.path ≠ path := fun e he heq => hpath ⟨e, he, heq⟩
      have hsize := h.grown hinit' path
      have hzero := balance_growths_other hnot
      rw [growthAt_move hm, hload, hother path hnot]
      show s.statSize path ≤ Ledger.balance acc path +
        (growthAt s.threads path - Ledger.balance (growths done) path + 0)
      omega
  · intro hinit hclean path
    have heq := hexact (hinitialized.symm.trans hinit) hclean path
    rw [changeAt_move hm, hload, Option.elim_none, add_zero]
    exact heq
  · intro hinit hq
    apply h.cleanly (hinitialized.symm.trans hinit)
    refine quiet_of_moves hm ?_ hq
    rw [hload]
    intro hdeleted
    cases hdeleted
  · exact h.pot_total
  · exact h.covered
  · intro t pc hpc e he
    apply h.claimed t pc (hm.cases_none hpc).2
    rw [← hepoch]
    exact he
  · exact h.fits

theorem Kept.reserved_le (h : Kept bound acc pot clean s)
    (hload : s.threads.load thread = some (.held done delta reserved written)) :
    0 ≤ reserved ∧ reserved ≤ s.bucket.reserved ∧ s.bucket.reserved ≤ bound := by
  have hactive := h.books.active_pos hload rfl
  have hnonneg : 0 ≤ reserved := RenoP.Capacity.reserved_nonneg (h.promises thread _ hload)
  have hle := GoMap.weight_le_sum
    (fun t pc hpc => RenoP.Capacity.reserved_nonneg (h.promises t pc hpc)) thread
  rw [GoMap.weight_of_load hload, ← h.books.reserved] at hle
  have hbound := (h.counted (Or.inr hactive)).2.1
  have hused := h.used_nonneg (Or.inr hactive)
  exact ⟨hnonneg, hle, by omega⟩

theorem Kept.next_commit (h : Kept bound acc pot clean s) (hbound : bound ≤ maxInt64) :
    ∃ acc', Kept bound acc' pot clean (s.next limit (.commit thread)) := by
  unfold System.next
  dsimp only
  split
  swap
  · exact ⟨acc, h⟩
  rename_i done delta reserved written hload
  split
  swap
  · exact ⟨acc, h⟩
  rename_i hwritten
  rw [List.all_eq_true] at hwritten
  obtain ⟨hholds, hdelta, hreserved⟩ := h.promises thread _ hload
  obtain ⟨hused, hle, hnonneg⟩ := h.counted (Or.inr (h.books.active_pos hload rfl))
  obtain ⟨hpos, hless, hmost⟩ := h.reserved_le hload
  have hsum : s.bucket.used + delta = Ledger.total (acc ++ changes done) := by
    rw [Ledger.total_append, hused, hdelta]
  have hother : ∀ path, (∀ e ∈ done, e.path ≠ path) →
      Ledger.balance (acc ++ changes done) path = Ledger.balance acc path := by
    intro path hpath
    rw [Ledger.balance_append, balance_changes_other hpath, add_zero]
  have hown : ∀ e ∈ done, e.size ≤ Ledger.balance (acc ++ changes done) e.path := by
    intro e he
    have hacc : e.2 ≤ Ledger.balance acc e.path := hholds.le_acc e he
    rw [Ledger.balance_append, balance_changes hholds.valid he]
    omega
  have hnonneg' : ∀ path, 0 ≤ Ledger.balance (acc ++ changes done) path := by
    intro path
    by_cases hpath : ∃ e ∈ done, e.path = path
    · obtain ⟨e, he, rfl⟩ := hpath
      have hsize := (validObjects_cases hholds.valid).1 e.1 (List.mem_map_of_mem he)
      exact Int.le_trans hsize (hown e he)
    · rw [hother path fun e he heq => hpath ⟨e, he, heq⟩]
      exact hnonneg path
  have hgrow : delta ≤ reserved := by
    rw [hdelta, hreserved]
    exact total_changes_le done
  have htotal := Ledger.total_nonneg hnonneg'
  have hleft : checked (s.bucket.reserved - reserved) = some (s.bucket.reserved - reserved) := by
    apply checked_of_fits
    unfold minInt64
    omega
  have hcount : checked (s.bucket.used + delta) = some (s.bucket.used + delta) := by
    apply checked_of_fits
    unfold minInt64
    omega
  have hunlocked : ((s.bucket.unlock (done.map Prod.fst)).used) = s.bucket.used := rfl
  unfold System.finishNext Bucket.finish
  simp only [hleft, hcount, hunlocked, Option.bind_eq_bind, Option.bind_some, if_true]
  refine ⟨acc ++ changes done, h.finish hload rfl rfl rfl rfl rfl rfl hsum ?_ hnonneg' hother ?_ ?_⟩
  · show s.bucket.used + delta + (s.bucket.reserved - reserved) ≤ bound
    omega
  · intro _ e he
    have hsize := hholds.size_le e he
    rw [if_pos (List.contains_iff_mem.mp (hwritten e he))] at hsize
    exact Int.le_trans hsize (hown e he)
  · intro hinit hclean path
    have hall : (Pc.held done delta reserved written).change = changes done :=
      congrArg changes (List.filter_eq_self.mpr hwritten)
    have heq := h.exact_used hinit hclean path
    rw [hall, Ledger.balance_append]
    omega

theorem Kept.next_release (h : Kept bound acc pot clean s) (hbound : bound ≤ maxInt64) :
    Kept bound acc pot clean (s.next limit (.release thread)) := by
  unfold System.next
  dsimp only
  split
  swap
  · exact h
  rename_i done delta reserved written hload
  obtain ⟨hused, hle, hnonneg⟩ := h.counted (Or.inr (h.books.active_pos hload rfl))
  obtain ⟨hpos, hless, hmost⟩ := h.reserved_le hload
  have hleft : checked (s.bucket.reserved - reserved) = some (s.bucket.reserved - reserved) := by
    apply checked_of_fits
    unfold minInt64
    omega
  -- the epoch ends, and then the reservation of a bucket without a measurement
  have hended : Kept bound acc pot clean { s with
      bucket := { s.bucket with initialized := false, epoch := s.bucket.epoch + 1 } } :=
    h.endEpoch rfl rfl rfl rfl rfl rfl rfl
  unfold System.finishNext Bucket.finish
  simp only [hleft, Option.bind_eq_bind, Option.bind_some, Bool.false_eq_true, if_false]
  refine hended.finish hload rfl rfl rfl rfl rfl rfl hused ?_ hnonneg (fun _ _ => rfl) nofun nofun
  show s.bucket.used + (s.bucket.reserved - reserved) ≤ bound
  omega

theorem Kept.delete (h : Kept bound acc pot clean s) (path : Text)
    (hload : ∀ pc, s.threads.load thread = some pc → pc = .deleted) :
    Kept bound acc pot False ({ s with stored := s.stored.delete path }.goto thread .deleted) := by
  have hm : Moves s.threads ({ s with stored := s.stored.delete path }.goto thread
      .deleted).threads thread (some .deleted) := moves_goto _ thread _
  have hstat : ∀ p, ({ s with stored := s.stored.delete path }.goto thread .deleted).statSize p ≤
      s.statSize p := by
    intro p
    have hdelete := Ledger.amount_delete s.stored path p
    have hpos := Ledger.amount_nonneg s.stored p
    show Ledger.amount (s.stored.delete path) p ≤ Ledger.amount s.stored p
    rw [hdelete]
    split_ifs
    · exact hpos
    · exact Int.le_refl _
  have hzero : ∀ f : Pc → ℤ, f .deleted = 0 → (s.threads.load thread).elim 0 f = 0 := by
    intro f hf
    cases hthread : s.threads.load thread with
    | none => rfl
    | some pc =>
      rw [Option.elim_some, hload pc hthread]
      exact hf
  have hloud : ¬({ s with stored := s.stored.delete path }.goto thread .deleted).quiet := by
    intro hq
    apply hq thread
    rw [hm.load, if_pos rfl]
  have hbooks : Books ({ s with stored := s.stored.delete path }.goto thread .deleted).threads
      s.bucket := by
    apply h.books.move hm
    · intro t pc _ hpc o ho
      exact h.books.locked t pc hpc o ho
    · intro pc hpc o ho
      cases hpc
      cases ho
    · rw [hzero Pc.activity rfl]
      show s.bucket.active = s.bucket.active - 0 + 0
      omega
    · rw [hzero Pc.loads rfl]
      show (if s.bucket.loading then (1 : ℤ) else 0) = (if s.bucket.loading then 1 else 0) - 0 + 0
      omega
    · exact h.books.measuring
    · rw [hzero Pc.reserved rfl]
      show s.bucket.reserved = s.bucket.reserved - 0 + 0
      omega
  constructor
  · exact hbooks
  · intro t pc hpc
    rcases hm.cases_some hpc with rfl | ⟨_, hpc'⟩
    · trivial
    · apply (h.promises t pc hpc').later
      · intro o _
        exact hstat o.path
      · intro _ _
        rfl
      · exact Nat.le_refl _
      · exact fun _ => id
      · exact id
      · exact False.elim
  · intro t objects epoch used hpc
    rcases hm.cases_some hpc with heq | ⟨_, hpc'⟩
    · cases heq
    · have hsnap := h.snapshot t objects epoch used hpc'
      exact ⟨hsnap.total, hsnap.le_bound, hsnap.nonneg,
        fun p => Int.le_trans (hstat p) (hsnap.size_le p), False.elim, fun _ hq => hloud hq⟩
  · exact h.counted
  · intro hinit p
    have hle := h.grown hinit p
    have hless := hstat p
    have hgrowth : (s.threads.load thread).elim 0 (Ledger.balance ·.growth p) = 0 :=
      hzero (Ledger.balance ·.growth p) rfl
    rw [growthAt_move hm, hgrowth]
    show _ ≤ Ledger.balance acc p + (growthAt s.threads p - 0 + 0)
    omega
  · exact fun _ => False.elim
  · exact fun _ hq => hloud hq
  · exact h.pot_total
  · exact fun p => Int.le_trans (hstat p) (h.covered p)
  · intro t pc hpc e he
    rcases hm.cases_some hpc with rfl | ⟨_, hpc'⟩
    · cases he
    · exact h.claimed t pc hpc' e he
  · exact h.fits

theorem Kept.next_delete (h : Kept bound acc pot clean s) (path : Text) :
    ∃ clean', Kept bound acc pot clean' (s.next limit (.delete thread path)) := by
  unfold System.next
  dsimp only
  split
  · rename_i hload
    refine ⟨False, h.delete path ?_⟩
    intro pc hpc
    rw [hload] at hpc
    cases hpc
  · rename_i hload
    refine ⟨False, h.delete path ?_⟩
    intro pc hpc
    rw [hload] at hpc
    exact (Option.some.inj hpc).symm
  · exact ⟨clean, h⟩

theorem Kept.invalidate (h : Kept bound acc pot clean s)
    (hload : ∀ pc, s.threads.load thread = some pc → pc = .deleted) :
    Kept bound acc pot clean ({ s with bucket := s.bucket.invalidate }.leave thread) := by
  have hended : Kept bound acc pot clean { s with bucket := s.bucket.invalidate } :=
    h.endEpoch rfl rfl rfl rfl rfl rfl rfl
  have hm : Moves s.threads ({ s with bucket := s.bucket.invalidate }.leave thread).threads thread
      none := moves_leave { s with bucket := s.bucket.invalidate } thread
  have hzero : ∀ f : Pc → ℤ, f .deleted = 0 → (s.threads.load thread).elim 0 f = 0 := by
    intro f hf
    cases hthread : s.threads.load thread with
    | none => rfl
    | some pc =>
      rw [Option.elim_some, hload pc hthread]
      exact hf
  have hbooks : Books ({ s with bucket := s.bucket.invalidate }.leave thread).threads
      s.bucket.invalidate := by
    apply hended.books.move hm
    · intro t pc _ hpc o ho
      exact h.books.locked t pc hpc o ho
    · intros <;> contradiction
    · have hactivity := hzero Pc.activity rfl
      show s.bucket.active = s.bucket.active - (s.threads.load thread).elim 0 Pc.activity + 0
      omega
    · have hloads := hzero Pc.loads rfl
      show (if s.bucket.loading then (1 : ℤ) else 0) = (if s.bucket.loading then 1 else 0) -
        (s.threads.load thread).elim 0 Pc.loads + 0
      omega
    · exact hended.books.measuring
    · have hreserved := hzero Pc.reserved rfl
      show s.bucket.reserved = s.bucket.reserved - (s.threads.load thread).elim 0 Pc.reserved + 0
      omega
  constructor
  · exact hbooks
  · intro t pc hpc
    exact hended.promises t pc (hm.cases_none hpc).2
  · intro t objects epoch used hpc
    have hsnap := hended.snapshot t objects epoch used (hm.cases_none hpc).2
    have hbefore : epoch ≤ s.bucket.epoch := (h.promises t _ (hm.cases_none hpc).2).2
    refine ⟨hsnap.total, hsnap.le_bound, hsnap.nonneg, hsnap.size_le, hsnap.exact_size, ?_⟩
    intro heq
    have heq' : epoch = s.bucket.epoch + 1 := heq
    omega
  · exact hended.counted
  · intros <;> contradiction
  · intros <;> contradiction
  · intros <;> contradiction
  · exact h.pot_total
  · exact h.covered
  · intro t pc hpc e he
    exact hended.claimed t pc (hm.cases_none hpc).2 e he
  · exact h.fits

theorem Kept.next_invalidate (h : Kept bound acc pot clean s) :
    Kept bound acc pot clean (s.next limit (.invalidate thread)) := by
  unfold System.next
  dsimp only
  split
  · rename_i hload
    apply h.invalidate
    intro pc hpc
    rw [hload] at hpc
    cases hpc
  · rename_i hload
    apply h.invalidate
    intro pc hpc
    rw [hload] at hpc
    exact (Option.some.inj hpc).symm
  · exact h

end RenoP.Capacity
