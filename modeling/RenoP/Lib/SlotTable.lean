import Mathlib.Data.List.Perm.Basic
import Mathlib.Data.List.Nodup
import Mathlib.Data.List.Induction
import Mathlib.Data.List.ReduceOption

/-!
# A table of slots with a free list

A slot holds a value or nothing. The free list is a stack, its top first. A table is well formed
when the free list names each empty slot once and nothing else.
-/

structure SlotTable (A : Type) where
  slots : List (Option A)
  free : List ℕ

namespace SlotTable

variable {A : Type}

def empty : SlotTable A := ⟨[], []⟩

def release (t : SlotTable A) (i : ℕ) : SlotTable A := ⟨t.slots.set i none, i :: t.free⟩

def put (t : SlotTable A) (i : ℕ) (a : A) : SlotTable A := { t with slots := t.slots.set i (some a) }

structure Wf (t : SlotTable A) : Prop where
  nodup : t.free.Nodup
  free_iff : ∀ i, i ∈ t.free ↔ t.slots[i]? = some none

theorem empty_wf : (empty : SlotTable A).Wf where
  nodup := List.nodup_nil
  free_iff := by
    intro i
    simp [empty]

theorem slots_release (t : SlotTable A) (i j : ℕ) :
    (t.release i).slots[j]? =
      if i = j then (if i < t.slots.length then some none else none) else t.slots[j]? :=
  List.getElem?_set

theorem slots_put (t : SlotTable A) (i : ℕ) (a : A) (j : ℕ) :
    (t.put i a).slots[j]? =
      if i = j then (if i < t.slots.length then some (some a) else none) else t.slots[j]? :=
  List.getElem?_set

theorem Wf.release {t : SlotTable A} (h : t.Wf) {i : ℕ} {a : A}
    (hi : t.slots[i]? = some (some a)) : (t.release i).Wf where
  nodup := by
    apply List.nodup_cons.mpr
    constructor
    · intro hmem
      rw [h.free_iff, hi] at hmem
      cases hmem
    · exact h.nodup
  free_iff := by
    intro j
    have hlt : i < t.slots.length := (List.getElem?_eq_some_iff.mp hi).1
    rw [slots_release, if_pos hlt]
    show j ∈ i :: t.free ↔ _
    rw [List.mem_cons, h.free_iff]
    by_cases hij : i = j
    · simp [hij]
    · rw [if_neg hij]
      constructor
      · rintro (rfl | h')
        · exact absurd rfl hij
        · exact h'
      · exact Or.inr

theorem Wf.put {t : SlotTable A} (h : t.Wf) {i : ℕ} {a b : A}
    (hi : t.slots[i]? = some (some b)) : (t.put i a).Wf where
  nodup := h.nodup
  free_iff := by
    intro j
    have hlt : i < t.slots.length := (List.getElem?_eq_some_iff.mp hi).1
    rw [slots_put, if_pos hlt]
    show j ∈ t.free ↔ _
    rw [h.free_iff]
    by_cases hij : i = j
    · rw [if_pos hij, ← hij, hi]
      simp
    · rw [if_neg hij]

theorem Wf.take {slots : List (Option A)} {i : ℕ} {free : List ℕ}
    (h : (SlotTable.mk slots (i :: free)).Wf) (a : A) :
    ((SlotTable.mk slots free).put i a).Wf where
  nodup := (List.nodup_cons.mp h.nodup).2
  free_iff := by
    intro j
    have hfree : slots[i]? = some none := (h.free_iff i).mp (List.mem_cons_self ..)
    have hlt : i < slots.length := (List.getElem?_eq_some_iff.mp hfree).1
    have hnot : i ∉ free := (List.nodup_cons.mp h.nodup).1
    rw [slots_put, if_pos hlt]
    show j ∈ free ↔ _
    by_cases hij : i = j
    · rw [if_pos hij, ← hij]
      simp [hnot]
    · rw [if_neg hij, ← h.free_iff]
      show j ∈ free ↔ j ∈ i :: free
      rw [List.mem_cons]
      constructor
      · exact Or.inr
      · rintro (rfl | h')
        · exact absurd rfl hij
        · exact h'

theorem Wf.grow {t : SlotTable A} (h : t.Wf) (a : A) :
    (SlotTable.put { t with slots := t.slots ++ [none] } t.slots.length a).Wf where
  nodup := h.nodup
  free_iff := by
    intro j
    have hlt : t.slots.length < (t.slots ++ [none]).length := by simp
    rw [slots_put, if_pos hlt]
    show j ∈ t.free ↔
      (if t.slots.length = j then some (some a) else (t.slots ++ [none])[j]?) = some none
    rw [h.free_iff]
    by_cases hj : t.slots.length = j
    · rw [if_pos hj, ← hj]
      simp
    · rw [if_neg hj]
      by_cases hlt : j < t.slots.length
      · rw [List.getElem?_append_left hlt]
      · rw [List.getElem?_eq_none (by omega), List.getElem?_eq_none (by simp; omega)]

theorem countP_none (slots : List (Option A)) :
    ((List.range slots.length).filter fun i => decide (slots[i]?.map Option.isNone = some true)).length
      = slots.countP Option.isNone := by
  induction slots using List.reverseRecOn with
  | nil => rfl
  | append_singleton l x ih =>
    rw [List.length_append, List.length_singleton, List.range_succ, List.filter_append,
      List.length_append, List.countP_append]
    congr 1
    · rw [← ih]
      congr 1
      apply List.filter_congr
      intro i hi
      rw [List.getElem?_append_left (List.mem_range.mp hi)]
    · simp only [List.filter_cons, List.getElem?_concat_length]
      cases x <;> rfl

theorem Wf.length_free {t : SlotTable A} (h : t.Wf) :
    t.free.length = t.slots.countP Option.isNone := by
  rw [← countP_none]
  apply List.Perm.length_eq
  apply (List.perm_ext_iff_of_nodup h.nodup (List.nodup_range.filter _)).mpr
  intro i
  rw [h.free_iff, List.mem_filter, List.mem_range, decide_eq_true_eq]
  constructor
  · intro hi
    refine ⟨(List.getElem?_eq_some_iff.mp hi).1, ?_⟩
    rw [hi]
    rfl
  · rintro ⟨hlt, hi⟩
    rw [List.getElem?_eq_getElem hlt] at hi ⊢
    cases hx : t.slots[i] with
    | none => rfl
    | some a =>
      rw [hx] at hi
      cases hi

theorem Wf.free_le {t : SlotTable A} (h : t.Wf) : t.free.length ≤ t.slots.length := by
  rw [h.length_free]
  exact List.countP_le_length

def values (t : SlotTable A) : List A := t.slots.reduceOption

theorem Wf.length_values {t : SlotTable A} (h : t.Wf) :
    t.values.length = t.slots.length - t.free.length := by
  have hsum := List.length_eq_countP_add_countP (l := t.slots) Option.isNone
  rw [← h.length_free] at hsum
  have hval : t.values.length = t.slots.countP Option.isSome := by
    rw [values, List.reduceOption_length_eq, List.countP_eq_length_filter]
  have hsome : t.slots.countP (fun a => decide ¬ a.isNone = true) = t.slots.countP Option.isSome := by
    apply List.countP_congr
    intro a _
    cases a <;> simp
  omega

theorem mem_values (t : SlotTable A) (a : A) : a ∈ t.values ↔ ∃ i : ℕ, t.slots[i]? = some (some a) := by
  rw [values, List.reduceOption_mem_iff, List.mem_iff_getElem?]

end SlotTable
