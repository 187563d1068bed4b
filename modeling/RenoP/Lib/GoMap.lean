import Mathlib.Data.List.AList
import Mathlib.Algebra.Order.BigOperators.Group.List
import Mathlib.Tactic.Abel

/-!
# Maps of a Go program

A map is a finite association list without duplicate keys (Mathlib's `AList`). A range over a map
visits the keys in some order: the order is a permutation of `keys`, chosen elsewhere.
-/

abbrev GoMap (K V : Type) := AList (fun _ : K => V)

instance lawfulBEqText : LawfulBEq (List Char) := inferInstance

namespace GoMap

variable {K V : Type}

section Keys
variable [DecidableEq K]

/-- `v, ok := m[k]`. -/
def load (m : GoMap K V) (k : K) : Option V := m.lookup k

/-- `m[k] = v`. -/
def store (m : GoMap K V) (k : K) (v : V) : GoMap K V := m.insert k v

def delete (m : GoMap K V) (k : K) : GoMap K V := m.erase k

/-- `DELETE FROM m WHERE p`. -/
def deleteWhere (m : GoMap K V) (p : K → V → Bool) : GoMap K V where
  entries := m.entries.filter fun e => !p e.1 e.2
  nodupKeys := m.nodupKeys.sublist List.filter_sublist

/-- `UPDATE m SET v = f WHERE p`. -/
def updateWhere (m : GoMap K V) (p : K → V → Bool) (f : K → V → V) : GoMap K V where
  entries := m.entries.map fun e => ⟨e.1, if p e.1 e.2 then f e.1 e.2 else e.2⟩
  nodupKeys := by
    have hkeys : (m.entries.map fun e => (⟨e.1, if p e.1 e.2 then f e.1 e.2 else e.2⟩ :
        Sigma fun _ : K => V)).keys = m.entries.keys := by
      unfold List.keys
      rw [List.map_map]
      rfl
    have hnodup : m.entries.keys.Nodup := m.nodupKeys
    rw [← hkeys] at hnodup
    exact hnodup

/-- `INSERT INTO m` of rows, where a row replaces the one of its key. -/
def storeAll (m : GoMap K V) (rows : List (K × V)) : GoMap K V :=
  rows.foldl (fun m e => m.store e.1 e.2) m

def has (m : GoMap K V) (k : K) : Bool := (m.load k).isSome

structure RangeOrder (K V : Type) [DecidableEq K] where
  keys : GoMap K V → List K
  perm : ∀ m, (keys m).Perm m.keys

def RangeOrder.pairs (o : RangeOrder K V) (m : GoMap K V) : List (K × V) :=
  (o.keys m).filterMap fun k => (m.load k).map fun v => (k, v)

end Keys

def sum (f : K → V → ℤ) (m : GoMap K V) : ℤ := (m.entries.map fun e => f e.1 e.2).sum

def count (p : K → V → Bool) (m : GoMap K V) : ℕ := m.entries.countP fun e => p e.1 e.2

def size (m : GoMap K V) : ℕ := m.entries.length

variable [DecidableEq K]

@[simp] theorem load_empty (k : K) : load (∅ : GoMap K V) k = none := rfl

@[simp] theorem load_store_self (m : GoMap K V) (k : K) (v : V) : (m.store k v).load k = some v :=
  AList.lookup_insert m

theorem load_store_ne (m : GoMap K V) {k k' : K} (v : V) (h : k ≠ k') :
    (m.store k' v).load k = m.load k :=
  AList.lookup_insert_ne h

@[simp] theorem load_delete_self (m : GoMap K V) (k : K) : (m.delete k).load k = none :=
  AList.lookup_erase k m

theorem load_delete_ne (m : GoMap K V) {k k' : K} (h : k ≠ k') :
    (m.delete k').load k = m.load k :=
  AList.lookup_erase_ne h

theorem load_store (m : GoMap K V) (k k' : K) (v : V) :
    (m.store k' v).load k = if k = k' then some v else m.load k := by
  by_cases h : k = k'
  · rw [h, load_store_self, if_pos rfl]
  · rw [load_store_ne m v h, if_neg h]

theorem load_delete (m : GoMap K V) (k k' : K) :
    (m.delete k').load k = if k = k' then none else m.load k := by
  by_cases h : k = k'
  · rw [h, load_delete_self, if_pos rfl]
  · rw [load_delete_ne m h, if_neg h]

theorem load_isSome (m : GoMap K V) (k : K) : (m.load k).isSome ↔ k ∈ m.keys :=
  AList.lookup_isSome

theorem load_eq_none (m : GoMap K V) (k : K) : m.load k = none ↔ k ∉ m.keys :=
  AList.lookup_eq_none

theorem mem_keys_of_load {m : GoMap K V} {k : K} {v : V} (h : m.load k = some v) : k ∈ m.keys := by
  rw [← load_isSome, h]
  rfl

theorem mem_keys_iff (m : GoMap K V) (k : K) : k ∈ m.keys ↔ ∃ v, m.load k = some v := by
  rw [← load_isSome, Option.isSome_iff_exists]

theorem mem_entries_iff (m : GoMap K V) (k : K) (v : V) :
    (⟨k, v⟩ : Sigma fun _ : K => V) ∈ m.entries ↔ m.load k = some v :=
  AList.mem_lookup_iff.symm

theorem has_eq_true (m : GoMap K V) (k : K) : m.has k = true ↔ ∃ v, m.load k = some v := by
  rw [has, Option.isSome_iff_exists]

theorem has_eq_false (m : GoMap K V) (k : K) : m.has k = false ↔ m.load k = none := by
  rw [has, Option.isSome_eq_false_iff, Option.isNone_iff_eq_none]

theorem has_store_self (m : GoMap K V) (k : K) (v : V) : (m.store k v).has k = true :=
  (has_eq_true _ k).mpr ⟨v, load_store_self m k v⟩

theorem RangeOrder.mem_keys (o : RangeOrder K V) (m : GoMap K V) (k : K) :
    k ∈ o.keys m ↔ m.has k = true := by
  rw [(o.perm m).mem_iff, has, load_isSome]

theorem RangeOrder.nodup (o : RangeOrder K V) (m : GoMap K V) : (o.keys m).Nodup :=
  (o.perm m).nodup_iff.mpr m.nodupKeys

theorem RangeOrder.mem_pairs (o : RangeOrder K V) (m : GoMap K V) (k : K) (v : V) :
    (k, v) ∈ o.pairs m ↔ m.load k = some v := by
  unfold RangeOrder.pairs
  rw [List.mem_filterMap]
  constructor
  · rintro ⟨k', -, h⟩
    obtain ⟨v', hv, heq⟩ := Option.map_eq_some_iff.mp h
    cases heq
    exact hv
  · intro h
    refine ⟨k, (o.mem_keys m k).mpr ((has_eq_true m k).mpr ⟨v, h⟩), ?_⟩
    rw [h]
    rfl

theorem RangeOrder.pairs_keys (o : RangeOrder K V) (m : GoMap K V) :
    (o.pairs m).map Prod.fst = o.keys m := by
  have h : ∀ l : List K, (∀ k ∈ l, m.has k = true) →
      (l.filterMap fun k => (m.load k).map fun v => (k, v)).map Prod.fst = l := by
    intro l
    induction l with
    | nil =>
      intro _
      rfl
    | cons k l ih =>
      intro hl
      obtain ⟨v, hv⟩ := (has_eq_true m k).mp (hl k (List.mem_cons_self ..))
      rw [List.filterMap_cons, hv]
      exact congrArg (k :: ·) (ih fun k' hk' => hl k' (List.mem_cons_of_mem k hk'))
  exact h (o.keys m) fun k hk => (o.mem_keys m k).mp hk

theorem RangeOrder.pairs_nodup (o : RangeOrder K V) (m : GoMap K V) :
    ((o.pairs m).map Prod.fst).Nodup := by
  rw [o.pairs_keys]
  exact o.nodup m

theorem load_updateWhere (m : GoMap K V) (p : K → V → Bool) (f : K → V → V) (k : K) :
    (m.updateWhere p f).load k = (m.load k).map fun v => if p k v then f k v else v := by
  refine Option.ext fun w => ?_
  rw [← mem_entries_iff, Option.map_eq_some_iff]
  show _ ∈ m.entries.map _ ↔ _
  rw [List.mem_map]
  constructor
  · rintro ⟨e, he, heq⟩
    cases heq
    exact ⟨e.2, (mem_entries_iff m e.1 e.2).mp he, rfl⟩
  · rintro ⟨v, hv, rfl⟩
    exact ⟨⟨k, v⟩, (mem_entries_iff m k v).mpr hv, rfl⟩

theorem has_updateWhere (m : GoMap K V) (p : K → V → Bool) (f : K → V → V) (k : K) :
    (m.updateWhere p f).has k = m.has k := by
  unfold has
  rw [load_updateWhere, Option.isSome_map]

theorem load_foldl_delete (ks : List K) (k : K) :
    ∀ m : GoMap K V, (ks.foldl delete m).load k = if k ∈ ks then none else m.load k := by
  induction ks with
  | nil =>
    intro m
    rw [if_neg List.not_mem_nil]
    rfl
  | cons k' ks ih =>
    intro m
    rw [List.foldl_cons, ih, load_delete]
    by_cases hk : k = k'
    · rw [if_pos hk, if_pos (List.mem_cons.mpr (Or.inl hk))]
      split_ifs <;> rfl
    · simp only [List.mem_cons, hk, false_or, if_false]

theorem load_storeAll (m : GoMap K V) (rows : List (K × V)) (k : K) :
    (∃ v, (k, v) ∈ rows ∧ (m.storeAll rows).load k = some v) ∨
      (∀ v, (k, v) ∉ rows) ∧ (m.storeAll rows).load k = m.load k := by
  unfold storeAll
  induction rows generalizing m with
  | nil => exact Or.inr ⟨fun v => List.not_mem_nil, rfl⟩
  | cons e rows ih =>
    rcases ih (m.store e.1 e.2) with ⟨v, hv, hload⟩ | ⟨hno, hload⟩
    · exact Or.inl ⟨v, List.mem_cons_of_mem e hv, hload⟩
    · by_cases hk : k = e.1
      · subst hk
        exact Or.inl ⟨e.2, List.mem_cons_self .., hload.trans (load_store_self m e.1 e.2)⟩
      · refine Or.inr ⟨fun v hv => ?_, hload.trans (load_store_ne m e.2 hk)⟩
        rcases List.mem_cons.mp hv with heq | hv
        · exact hk (congrArg Prod.fst heq)
        · exact hno v hv

def RangeOrder.entries : RangeOrder K V := ⟨fun m => m.keys, fun m => List.Perm.refl m.keys⟩

omit [DecidableEq K] in
theorem size_eq_sum (m : GoMap K V) : (m.size : ℤ) = sum (fun _ _ => 1) m := by
  simp [size, sum]

omit [DecidableEq K] in
theorem count_eq_sum (p : K → V → Bool) (m : GoMap K V) :
    (m.count p : ℤ) = sum (fun k v => if p k v then 1 else 0) m := by
  unfold count sum
  induction m.entries with
  | nil => rfl
  | cons e es ih =>
    rw [List.countP_cons, List.map_cons, List.sum_cons, ← ih]
    by_cases h : p e.1 e.2
    · simp only [h, if_true]
      omega
    · simp only [h, Bool.false_eq_true, if_false]
      omega

def weight (f : K → V → ℤ) (m : GoMap K V) (k : K) : ℤ := (m.load k).elim 0 (f k)

theorem weight_of_load {f : K → V → ℤ} {m : GoMap K V} {k : K} {v : V} (h : m.load k = some v) :
    weight f m k = f k v := by
  rw [weight, h]
  rfl

theorem weight_of_absent {f : K → V → ℤ} {m : GoMap K V} {k : K} (h : m.load k = none) :
    weight f m k = 0 := by
  rw [weight, h]
  rfl

theorem sum_delete (f : K → V → ℤ) (m : GoMap K V) (k : K) :
    sum f (m.delete k) = sum f m - weight f m k := by
  by_cases hk : k ∈ m.keys
  · obtain ⟨v, l₁, l₂, -, hm, he⟩ := List.exists_of_kerase hk
    have hv : m.load k = some v := by
      rw [← mem_entries_iff, hm]
      exact List.mem_append_right _ (List.mem_cons_self ..)
    have hd : (m.delete k).entries = l₁ ++ l₂ := he
    rw [weight_of_load hv, sum, sum, hd, hm]
    simp only [List.map_append, List.map_cons, List.sum_append, List.sum_cons]
    abel
  · have hd : (m.delete k).entries = m.entries := List.kerase_of_notMem_keys hk
    rw [weight_of_absent ((load_eq_none m k).mpr hk), sum, sum, hd, sub_zero]

theorem sum_store (f : K → V → ℤ) (m : GoMap K V) (k : K) (v : V) :
    sum f (m.store k v) = sum f m - weight f m k + f k v := by
  have hs : sum f (m.store k v) = f k v + sum f (m.delete k) := rfl
  rw [hs, sum_delete]
  abel

theorem sum_le_sum {f g : K → V → ℤ} {m : GoMap K V}
    (h : ∀ k v, m.load k = some v → f k v ≤ g k v) : sum f m ≤ sum g m :=
  List.sum_le_sum fun e he => h e.1 e.2 ((mem_entries_iff m e.1 e.2).mp he)

theorem sum_nonneg {f : K → V → ℤ} {m : GoMap K V} (h : ∀ k v, m.load k = some v → 0 ≤ f k v) :
    0 ≤ sum f m :=
  List.sum_nonneg fun x hx => by
    obtain ⟨e, he, rfl⟩ := List.mem_map.mp hx
    exact h e.1 e.2 ((mem_entries_iff m e.1 e.2).mp he)

theorem weight_le_sum {f : K → V → ℤ} {m : GoMap K V} (h : ∀ k v, m.load k = some v → 0 ≤ f k v)
    (k : K) : weight f m k ≤ sum f m := by
  have hrest : 0 ≤ sum f (m.delete k) := by
    apply sum_nonneg
    intro k' v hload
    rw [load_delete] at hload
    split_ifs at hload
    exact h k' v hload
  rw [sum_delete] at hrest
  omega

theorem weight_eq_zero_of_sum_le {f : K → V → ℤ} {m : GoMap K V}
    (h : ∀ k v, m.load k = some v → 0 ≤ f k v) {k k' : K} (hk : k' ≠ k)
    (hsum : sum f m ≤ weight f m k) : weight f m k' = 0 := by
  have hnonneg : ∀ k' v, (m.delete k).load k' = some v → 0 ≤ f k' v := by
    intro k' v hload
    rw [load_delete] at hload
    split_ifs at hload
    exact h k' v hload
  have hle := weight_le_sum hnonneg k'
  have hsame : weight f (m.delete k) k' = weight f m k' := by
    unfold weight
    rw [load_delete_ne m hk]
  have hpos : 0 ≤ weight f m k' := by
    unfold weight
    cases hload : m.load k' with
    | none => exact Int.le_refl 0
    | some v => exact h k' v hload
  rw [hsame, sum_delete] at hle
  omega

theorem sum_eq_weight {f : K → V → ℤ} {m : GoMap K V} {k : K}
    (h : ∀ k' v, k' ≠ k → m.load k' = some v → f k' v = 0) : sum f m = weight f m k := by
  have hrest : sum f (m.delete k) = 0 := by
    apply List.sum_eq_zero
    intro x hx
    obtain ⟨e, he, rfl⟩ := List.mem_map.mp hx
    have hload := (mem_entries_iff _ e.1 e.2).mp he
    rw [load_delete] at hload
    split_ifs at hload with hk
    exact h e.1 e.2 hk hload
  rw [sum_delete] at hrest
  omega

theorem load_deleteWhere (m : GoMap K V) (p : K → V → Bool) (k : K) :
    (m.deleteWhere p).load k = (m.load k).filter fun v => !p k v := by
  refine Option.ext fun v => ?_
  rw [← mem_entries_iff, Option.filter_eq_some_iff, ← mem_entries_iff]
  exact List.mem_filter

theorem load_deleteWhere_of_false (m : GoMap K V) {p : K → V → Bool} {k : K}
    (h : ∀ v, p k v = false) : (m.deleteWhere p).load k = m.load k := by
  rw [load_deleteWhere]
  cases m.load k with
  | none => rfl
  | some v =>
    apply Option.filter_some_pos
    rw [h v]
    rfl

omit [DecidableEq K] in
theorem sum_deleteWhere (f : K → V → ℤ) (m : GoMap K V) (p : K → V → Bool) :
    sum f (m.deleteWhere p) = sum (fun k v => if p k v then 0 else f k v) m := by
  show ((m.entries.filter fun e => !p e.1 e.2).map fun e => f e.1 e.2).sum =
    (m.entries.map fun e => if p e.1 e.2 then 0 else f e.1 e.2).sum
  induction m.entries with
  | nil => rfl
  | cons e es ih =>
    cases h : p e.1 e.2 with
    | true => simpa [List.filter_cons, h] using ih
    | false => simpa [List.filter_cons, h] using ih

theorem size_delete (m : GoMap K V) (k : K) :
    ((m.delete k).size : ℤ) = m.size - if m.has k then 1 else 0 := by
  rw [size_eq_sum, size_eq_sum, sum_delete, weight, has]
  cases m.load k <;> rfl

theorem size_store (m : GoMap K V) (k : K) (v : V) :
    ((m.store k v).size : ℤ) = m.size + if m.has k then 0 else 1 := by
  rw [size_eq_sum, size_eq_sum, sum_store, weight, has]
  cases m.load k with
  | none => simp
  | some w => simp

theorem weight_count (p : K → V → Bool) (m : GoMap K V) (k : K) :
    weight (fun k v => if p k v then 1 else 0) m k = if (m.load k).any (p k) then 1 else 0 := by
  unfold weight
  cases m.load k <;> rfl

theorem count_delete (p : K → V → Bool) (m : GoMap K V) (k : K) :
    ((m.delete k).count p : ℤ) = m.count p - if (m.load k).any (p k) then 1 else 0 := by
  rw [count_eq_sum, count_eq_sum, sum_delete, weight_count]

theorem count_store (p : K → V → Bool) (m : GoMap K V) (k : K) (v : V) :
    ((m.store k v).count p : ℤ) =
      m.count p - (if (m.load k).any (p k) then 1 else 0) + if p k v then 1 else 0 := by
  rw [count_eq_sum, count_eq_sum, sum_store, weight_count]

theorem sum_eq_keys (f : K → V → ℤ) (m : GoMap K V) :
    sum f m = (m.keys.map (weight f m)).sum := by
  unfold sum AList.keys List.keys
  rw [List.map_map]
  congr 1
  refine List.map_congr_left fun e he => ?_
  exact (weight_of_load ((mem_entries_iff m e.1 e.2).mp he)).symm

theorem keys_perm {W : Type} {m : GoMap K V} {m' : GoMap K W} (h : ∀ k, m.has k = m'.has k) :
    m.keys.Perm m'.keys := by
  refine (List.perm_ext_iff_of_nodup m.nodupKeys m'.nodupKeys).mpr fun k => ?_
  have hk : k ∈ m.keys ↔ k ∈ m'.keys := by
    rw [← load_isSome, ← load_isSome]
    exact Bool.eq_iff_iff.mp (h k)
  exact hk

theorem sum_congr {W : Type} {f : K → V → ℤ} {g : K → W → ℤ} {m : GoMap K V} {m' : GoMap K W}
    (hk : ∀ k, m.has k = m'.has k) (hw : ∀ k, weight f m k = weight g m' k) :
    sum f m = sum g m' := by
  rw [sum_eq_keys, sum_eq_keys, funext hw]
  exact ((keys_perm hk).map _).sum_eq

theorem size_congr {W : Type} {m : GoMap K V} {m' : GoMap K W} (hk : ∀ k, m.has k = m'.has k) :
    m.size = m'.size := by
  have h := (keys_perm hk).length_eq
  simpa [AList.keys, List.keys, size] using h

theorem count_pos {p : K → V → Bool} {m : GoMap K V} {k : K} {v : V} (h : m.load k = some v)
    (hp : p k v = true) : 1 ≤ m.count p :=
  List.countP_pos_iff.mpr ⟨⟨k, v⟩, (mem_entries_iff m k v).mpr h, hp⟩

theorem count_eq_zero_iff (p : K → V → Bool) (m : GoMap K V) :
    m.count p = 0 ↔ ∀ k v, m.load k = some v → p k v = false := by
  unfold count
  rw [List.countP_eq_zero]
  constructor
  · intro h k v hv
    exact Bool.eq_false_iff.mpr (h ⟨k, v⟩ ((mem_entries_iff m k v).mpr hv))
  · intro h e he
    rw [h e.1 e.2 ((mem_entries_iff m e.1 e.2).mp he)]
    exact Bool.false_ne_true

theorem exists_of_count_pos {p : K → V → Bool} {m : GoMap K V} (h : 0 < m.count p) :
    ∃ k v, m.load k = some v ∧ p k v = true := by
  obtain ⟨e, he, hp⟩ := List.countP_pos_iff.mp h
  exact ⟨e.1, e.2, (mem_entries_iff m e.1 e.2).mp he, hp⟩

theorem count_keys_le {q : K → Bool} {m m' : GoMap K V}
    (h : ∀ k, m'.has k = true → m.has k = true) :
    m'.count (fun k _ => q k) ≤ m.count fun k _ => q k := by
  have hkeys : ∀ m : GoMap K V, m.count (fun k _ => q k) = (m.keys.filter q).length := by
    intro m
    unfold count AList.keys List.keys
    rw [List.filter_map, List.length_map, List.countP_eq_length_filter]
    rfl
  rw [hkeys, hkeys]
  apply (List.subperm_of_subset (m'.nodupKeys.filter q) _).length_le
  intro k hk
  obtain ⟨hmem, hq⟩ := List.mem_filter.mp hk
  exact List.mem_filter.mpr ⟨(load_isSome m k).mp (h k ((load_isSome m' k).mpr hmem)), hq⟩

omit [DecidableEq K] in
theorem nodup_entries (m : GoMap K V) : m.entries.Nodup :=
  List.Nodup.of_map Sigma.fst m.nodupKeys

theorem count_eq_one_iff (p : K → V → Bool) (m : GoMap K V) :
    m.count p = 1 ↔ ∃ k, ∀ k', (∃ v, m.load k' = some v ∧ p k' v = true) ↔ k' = k := by
  have hmem : ∀ k v, (⟨k, v⟩ : Sigma fun _ : K => V) ∈ m.entries.filter (fun e => p e.1 e.2) ↔
      m.load k = some v ∧ p k v = true := by
    intro k v
    rw [List.mem_filter, mem_entries_iff]
  unfold count
  rw [List.countP_eq_length_filter]
  constructor
  · intro h
    obtain ⟨e, he⟩ := List.length_eq_one_iff.mp h
    refine ⟨e.1, fun k' => ?_⟩
    constructor
    · intro ⟨v, hv⟩
      have hk' := (hmem k' v).mpr hv
      rw [he, List.mem_singleton] at hk'
      rw [← hk']
    · intro hk'
      refine ⟨e.2, ?_⟩
      rw [hk']
      exact (hmem e.1 e.2).mp (by rw [he]; exact List.mem_singleton.mpr rfl)
  · intro ⟨k, hk⟩
    obtain ⟨v, hv⟩ := (hk k).mpr rfl
    have hperm : (m.entries.filter fun e => p e.1 e.2).Perm [⟨k, v⟩] := by
      apply (List.perm_ext_iff_of_nodup (m.nodup_entries.filter _) (List.nodup_singleton _)).mpr
      intro e
      rw [List.mem_singleton]
      constructor
      · intro he
        have hload := (hmem e.1 e.2).mp he
        have hkey : e.1 = k := (hk e.1).mp ⟨e.2, hload⟩
        have hval : e.2 = v := by
          rw [hkey, hv.1] at hload
          exact (Option.some.inj hload.1).symm
        exact Sigma.ext hkey (heq_of_eq hval)
      · intro he
        rw [he]
        exact (hmem k v).mpr hv
    exact hperm.length_eq

theorem load_updateRow {m : GoMap K V} {k : K} {q : V → Bool} {f : V → V}
    (h : m.count (fun k' v => decide (k' = k) && q v) = 1) :
    ∃ v, m.load k = some v ∧ q v = true ∧
      ∀ k', (m.updateWhere (fun k' v => decide (k' = k) && q v) (fun _ => f)).load k' =
        if k' = k then some (f v) else m.load k' := by
  obtain ⟨k₁, v, hv, hp⟩ := exists_of_count_pos (Nat.lt_of_lt_of_eq Nat.one_pos h.symm)
  rw [Bool.and_eq_true, decide_eq_true_eq] at hp
  obtain ⟨hk, hq⟩ := hp
  rw [hk] at hv
  refine ⟨v, hv, hq, ?_⟩
  intro k'
  rw [load_updateWhere]
  split_ifs with hk'
  · rw [hk', hv]
    simp [hq]
  · cases m.load k' with
    | none => rfl
    | some w => simp [hk']

structure Moves (m m' : GoMap K V) (k : K) (new : Option V) : Prop where
  load : ∀ k', m'.load k' = if k' = k then new else m.load k'
  sum : ∀ f : V → ℤ, sum (fun _ => f) m' = sum (fun _ => f) m - (m.load k).elim 0 f + new.elim 0 f

theorem moves_store (m : GoMap K V) (k : K) (v : V) : Moves m (m.store k v) k (some v) :=
  ⟨fun k' => load_store m k' k v, fun f => sum_store (fun _ => f) m k v⟩

theorem moves_delete (m : GoMap K V) (k : K) : Moves m (m.delete k) k none := by
  constructor
  · intro k'
    exact load_delete m k' k
  · intro f
    have hsum := sum_delete (fun _ => f) m k
    rw [Option.elim_none, add_zero]
    exact hsum

theorem Moves.cases {m m' : GoMap K V} {k : K} {new : Option V} (h : Moves m m' k new) {k' : K}
    {v : V} (hload : m'.load k' = some v) :
    k' = k ∧ new = some v ∨ k' ≠ k ∧ m.load k' = some v := by
  rw [h.load] at hload
  split_ifs at hload with hk
  · exact Or.inl ⟨hk, hload⟩
  · exact Or.inr ⟨hk, hload⟩

theorem Moves.cases_some {m m' : GoMap K V} {k : K} {w : V} (h : Moves m m' k (some w)) {k' : K}
    {v : V} (hload : m'.load k' = some v) : v = w ∨ k' ≠ k ∧ m.load k' = some v := by
  rcases h.cases hload with ⟨-, heq⟩ | hold
  · exact Or.inl (Option.some.inj heq).symm
  · exact Or.inr hold

theorem Moves.cases_none {m m' : GoMap K V} {k : K} (h : Moves m m' k none) {k' : K} {v : V}
    (hload : m'.load k' = some v) : k' ≠ k ∧ m.load k' = some v := by
  rcases h.cases hload with ⟨-, heq⟩ | hold
  · cases heq
  · exact hold

def Steady (R : V → V → Prop) (m m' : GoMap K V) : Prop :=
  ∀ k v v', m.load k = some v → m'.load k = some v' → R v v'

theorem steady_refl {R : V → V → Prop} (hrefl : ∀ v, R v v) (m : GoMap K V) : Steady R m m := by
  intro k v v' hv hv'
  rw [hv] at hv'
  cases hv'
  exact hrefl v

theorem steady_of_sub {R : V → V → Prop} {m m' : GoMap K V} (hrefl : ∀ v, R v v)
    (hsub : ∀ k v, m'.load k = some v → m.load k = some v) : Steady R m m' := by
  intro k v v' hv hv'
  rw [hsub k v' hv'] at hv
  cases hv
  exact hrefl v

theorem steady_deleteWhere {R : V → V → Prop} (hrefl : ∀ v, R v v) (m : GoMap K V)
    (p : K → V → Bool) : Steady R m (m.deleteWhere p) := by
  apply steady_of_sub hrefl
  intro k v hv
  rw [load_deleteWhere, Option.filter_eq_some_iff] at hv
  exact hv.1

theorem steady_foldl_delete {R : V → V → Prop} (hrefl : ∀ v, R v v) (m : GoMap K V) (ks : List K) :
    Steady R m (ks.foldl delete m) := by
  apply steady_of_sub hrefl
  intro k v hv
  rw [load_foldl_delete] at hv
  split_ifs at hv
  exact hv

theorem steady_delete {R : V → V → Prop} (hrefl : ∀ v, R v v) (m : GoMap K V) (k : K) :
    Steady R m (m.delete k) :=
  steady_foldl_delete hrefl m [k]

theorem steady_updateWhere {R : V → V → Prop} {m : GoMap K V} {p : K → V → Bool} {f : K → V → V}
    (hrefl : ∀ v, R v v) (hf : ∀ k v, p k v = true → R v (f k v)) :
    Steady R m (m.updateWhere p f) := by
  intro k v v' hv hv'
  rw [load_updateWhere, hv] at hv'
  cases hv'
  show R v (if p k v = true then f k v else v)
  split_ifs with hp
  · exact hf k v hp
  · exact hrefl v

theorem steady_store {R : V → V → Prop} {m : GoMap K V} {k : K} {v : V} (hrefl : ∀ v, R v v)
    (hold : ∀ old, m.load k = some old → R old v) : Steady R m (m.store k v) := by
  intro k' w w' hw hw'
  rcases (moves_store m k v).cases hw' with ⟨hk, hv⟩ | ⟨hk, hw'⟩
  · cases hv
    rw [hk] at hw
    exact hold w hw
  · rw [hw] at hw'
    cases hw'
    exact hrefl w

/-- `m[k]` of a map of integers: an absent key reads zero. -/
def counter (m : GoMap K ℤ) (k : K) : ℤ := (m.load k).getD 0

def incr (m : GoMap K ℤ) (k : K) : GoMap K ℤ := m.store k (m.counter k + 1)

/-- `m[k]--`, with the key deleted when nothing is left. -/
def decr (m : GoMap K ℤ) (k : K) : GoMap K ℤ :=
  let m := m.store k (m.counter k - 1)
  if m.counter k ≤ 0 then m.delete k else m

theorem counter_incr (m : GoMap K ℤ) (k k' : K) :
    (m.incr k).counter k' = m.counter k' + if k' = k then 1 else 0 := by
  unfold incr
  rw [counter, load_store]
  split_ifs with h
  · rw [h, Option.getD_some]
  · rw [add_zero]
    rfl

theorem counter_decr (m : GoMap K ℤ) (k k' : K) (h : 1 ≤ m.counter k) :
    (m.decr k).counter k' = m.counter k' - if k' = k then 1 else 0 := by
  have hs : (m.store k (m.counter k - 1)).counter k = m.counter k - 1 := by
    rw [counter, load_store_self, Option.getD_some]
  unfold decr
  dsimp only
  rw [hs]
  by_cases hk : k' = k
  · subst hk
    rw [if_pos rfl]
    split_ifs with hz
    · rw [counter, load_delete_self, Option.getD_none]
      omega
    · exact hs
  · rw [if_neg hk, sub_zero]
    split_ifs
    · rw [counter, load_delete_ne _ hk, load_store_ne _ _ hk]
      rfl
    · rw [counter, load_store_ne _ _ hk]
      rfl

def All (P : V → Prop) (m : GoMap K V) : Prop := ∀ k v, m.load k = some v → P v

variable {P : V → Prop} {m : GoMap K V}

theorem all_empty : All P (∅ : GoMap K V) := nofun

theorem All.store (h : All P m) (k : K) {v : V} (hv : P v) : All P (m.store k v) := by
  intro k' v' hload
  rw [load_store] at hload
  split_ifs at hload
  · cases hload
    exact hv
  · exact h k' v' hload

theorem All.delete (h : All P m) (k : K) : All P (m.delete k) := by
  intro k' v hload
  rw [load_delete] at hload
  split_ifs at hload
  exact h k' v hload

theorem All.foldl_delete (ks : List K) : ∀ {m : GoMap K V}, All P m → All P (ks.foldl GoMap.delete m) := by
  induction ks with
  | nil => exact fun h => h
  | cons k ks ih => exact fun h => ih (h.delete k)

theorem All.deleteWhere (h : All P m) (p : K → V → Bool) : All P (m.deleteWhere p) := by
  intro k v hload
  rw [load_deleteWhere, Option.filter_eq_some_iff] at hload
  exact h k v hload.1

theorem All.updateWhere (h : All P m) (p : K → V → Bool) {f : K → V → V}
    (hf : ∀ k v, P v → P (f k v)) : All P (m.updateWhere p f) := by
  intro k v hload
  rw [load_updateWhere, Option.map_eq_some_iff] at hload
  obtain ⟨v', hv', rfl⟩ := hload
  split_ifs
  · exact hf k v' (h k v' hv')
  · exact h k v' hv'

end GoMap
