import Mathlib.Algebra.Order.Ring.Nat
import Mathlib.Data.List.Basic
import Mathlib.Data.List.Induction

/-!
# Nested names

Names made of labels with a separator between them. A name contains itself and those that go on
after it with the separator. `longest` takes the longest of the entries of a list whose names
contain a given one.
-/

namespace Nested

variable {α β : Type} [DecidableEq α] (sep : α)

def contains (name inner : List α) : Bool :=
  decide (inner = name) || (name ++ [sep]).isPrefixOf inner

variable {sep} {a b c : List α}

theorem contains_iff : contains sep a b = true ↔ a ++ [sep] <+: b ++ [sep] := by
  unfold contains
  rw [Bool.or_eq_true, decide_eq_true_eq, List.isPrefixOf_iff_prefix]
  constructor
  · intro h
    rcases h with rfl | hbefore
    · exact List.prefix_refl _
    · exact hbefore.trans (List.prefix_append b [sep])
  · intro h
    rcases Nat.lt_or_ge a.length b.length with hlt | hge
    · right
      have hle : (a ++ [sep]).length ≤ b.length := by
        rw [List.length_append, List.length_singleton]
        omega
      exact List.prefix_of_prefix_length_le h (List.prefix_append b [sep]) hle
    · left
      have hlen : (a ++ [sep]).length = (b ++ [sep]).length := by
        have hle := h.length_le
        simp only [List.length_append, List.length_singleton] at hle ⊢
        omega
      exact (List.append_cancel_right (h.eq_of_length hlen)).symm

theorem before_label {x : List α} (hx : sep ∉ x) :
    a ++ [sep] <+: b ++ sep :: x ↔ contains sep a b = true := by
  rw [contains_iff]
  have hsplit : b ++ sep :: x = (b ++ [sep]) ++ x := by simp
  rw [hsplit]
  refine ⟨fun h => ?_, fun h => h.trans (List.prefix_append ..)⟩
  rcases List.prefix_or_prefix_of_prefix h (List.prefix_append ..) with hbefore | ⟨w, hw⟩
  · exact hbefore
  · rcases List.eq_nil_or_concat w with rfl | ⟨w, c, rfl⟩
    · exact ⟨[], (List.append_nil _).trans (hw.symm.trans (List.append_nil _))⟩
    · have hlast : (b ++ [sep] ++ w) ++ [c] = a ++ [sep] := by simpa using hw
      have hc := (List.cons.inj (List.append_inj' hlast rfl).2).1
      rw [← hw, List.prefix_append_right_inj, hc] at h
      exact absurd (h.subset (by simp)) hx

theorem contains_append (a b : List α) : contains sep a (a ++ sep :: b) = true := by
  rw [contains_iff]
  exact ⟨b ++ [sep], by simp⟩

theorem contains_trans (hab : contains sep a b = true) (hbc : contains sep b c = true) :
    contains sep a c = true := by
  rw [contains_iff] at hab hbc ⊢
  exact hab.trans hbc

theorem contains_of_length_le (ha : contains sep a c = true) (hb : contains sep b c = true)
    (hle : a.length ≤ b.length) : contains sep a b = true := by
  rw [contains_iff] at ha hb ⊢
  apply List.prefix_of_prefix_length_le ha hb
  simp only [List.length_append, List.length_singleton]
  omega

theorem contains_cases (h : contains sep a b = true) : b = a ∨ ∃ s, b = a ++ sep :: s := by
  unfold contains at h
  rw [Bool.or_eq_true, decide_eq_true_eq, List.isPrefixOf_iff_prefix] at h
  rcases h with heq | ⟨s, hs⟩
  · exact Or.inl heq
  · right
    refine ⟨s, ?_⟩
    rw [← hs]
    simp

section Labels

variable {labels labels' : List (List α)}

theorem mem_labels {c : α} (h : c ∈ [sep].intercalate labels) : c = sep ∨ ∃ x ∈ labels, c ∈ x := by
  induction labels with
  | nil => cases h
  | cons x labels ih =>
    cases labels with
    | nil =>
      rw [List.intercalate_singleton] at h
      exact Or.inr ⟨x, List.mem_cons_self .., h⟩
    | cons y labels =>
      rw [List.intercalate_cons_cons, List.append_assoc, List.mem_append, List.singleton_append,
        List.mem_cons] at h
      rcases h with hx | hsep | hrest
      · exact Or.inr ⟨x, List.mem_cons_self .., hx⟩
      · exact Or.inl hsep
      · rcases ih hrest with hsep | ⟨z, hz, hc⟩
        · exact Or.inl hsep
        · exact Or.inr ⟨z, List.mem_cons_of_mem x hz, hc⟩

theorem mem_of_label {c : α} {x : List α} (hx : x ∈ labels) (hc : c ∈ x) :
    c ∈ [sep].intercalate labels := by
  induction labels with
  | nil => cases hx
  | cons y labels ih =>
    cases labels with
    | nil =>
      rw [List.mem_singleton.mp hx] at hc
      rwa [List.intercalate_singleton]
    | cons z labels =>
      rw [List.intercalate_cons_cons, List.append_assoc, List.mem_append]
      rcases List.mem_cons.mp hx with rfl | hx
      · exact Or.inl hc
      · exact Or.inr (List.mem_append_right _ (ih hx))

omit [DecidableEq α] in
theorem first_inj {x x' s s' : List α} (hx : sep ∉ x) (hx' : sep ∉ x')
    (h : x ++ sep :: s = x' ++ sep :: s') : x = x' ∧ s = s' := by
  induction x generalizing x' with
  | nil =>
    cases x' with
    | nil => exact ⟨rfl, (List.cons.inj h).2⟩
    | cons b x' => exact absurd ((List.cons.inj h).1 ▸ List.mem_cons_self ..) hx'
  | cons a x ih =>
    cases x' with
    | nil => exact absurd ((List.cons.inj h).1 ▸ List.mem_cons_self ..) hx
    | cons b x' =>
      obtain ⟨hhead, htail⟩ := List.cons.inj h
      obtain ⟨heq, hrest⟩ := ih (fun hmem => hx (List.mem_cons_of_mem a hmem))
        (fun hmem => hx' (List.mem_cons_of_mem b hmem)) htail
      exact ⟨by rw [hhead, heq], hrest⟩

theorem labels_append (hne : labels ≠ []) (hne' : labels' ≠ []) :
    [sep].intercalate (labels ++ labels') =
      [sep].intercalate labels ++ sep :: [sep].intercalate labels' := by
  induction labels with
  | nil => exact absurd rfl hne
  | cons x labels ih =>
    obtain ⟨z, rest, rfl⟩ := List.exists_cons_of_ne_nil hne'
    cases labels with
    | nil => simp
    | cons y labels =>
      have hi := ih (List.cons_ne_nil _ _)
      rw [List.cons_append] at hi
      rw [List.cons_append, List.cons_append, List.intercalate_cons_cons, hi,
        List.intercalate_cons_cons]
      simp

theorem splitOn_labels (hlabels : ∀ x ∈ labels, sep ∉ x) (hne : labels ≠ []) (rest : List α) :
    ([sep].intercalate labels ++ sep :: rest).splitOn sep = labels ++ rest.splitOn sep := by
  induction labels with
  | nil => exact absurd rfl hne
  | cons x labels ih =>
    have hx := hlabels x (List.mem_cons_self ..)
    cases labels with
    | nil =>
      rw [List.intercalate_singleton, List.splitOn_append_cons_self_of_not_mem hx]
      rfl
    | cons y labels =>
      have hi := ih (fun z hz => hlabels z (List.mem_cons_of_mem x hz)) (List.cons_ne_nil _ _)
      rw [List.intercalate_cons_cons, List.append_assoc, List.append_assoc, List.singleton_append,
        List.splitOn_append_cons_self_of_not_mem hx, hi]
      rfl

theorem labels_of_begin (hlabels : ∀ x ∈ labels, sep ∉ x) (hne : labels ≠ [])
    (hlabels' : ∀ x ∈ labels', sep ∉ x)
    (h : [sep].intercalate labels ++ [sep] <+: [sep].intercalate labels') : labels <+: labels' := by
  obtain ⟨rest, hrest⟩ := h
  have hne' : labels' ≠ [] := by
    rintro rfl
    cases labels with
    | nil => exact hne rfl
    | cons x labels => simp at hrest
  rw [← List.splitOn_intercalate sep hlabels' hne', ← hrest, List.append_assoc,
    List.singleton_append, splitOn_labels hlabels hne]
  exact List.prefix_append _ _

theorem begin_of_labels (hne : labels ≠ []) (hrest : labels' ≠ []) :
    [sep].intercalate labels ++ [sep] <+: [sep].intercalate (labels ++ labels') := by
  refine ⟨[sep].intercalate labels', ?_⟩
  rw [labels_append hne hrest, List.append_assoc, List.singleton_append]

theorem count_labels (hne : labels ≠ []) : ([sep].intercalate labels).count sep + 1 =
    labels.length + (labels.map (List.count sep)).sum := by
  induction labels with
  | nil => exact absurd rfl hne
  | cons x labels ih =>
    cases labels with
    | nil => simp [Nat.add_comm]
    | cons y labels =>
      have hi := ih (List.cons_ne_nil _ _)
      rw [List.intercalate_cons_cons, List.count_append, List.count_append, List.map_cons,
        List.sum_cons, List.length_cons, List.count_singleton_self]
      omega

theorem count_plain (hlabels : ∀ x ∈ labels, sep ∉ x) (hne : labels ≠ []) :
    ([sep].intercalate labels).count sep + 1 = labels.length := by
  have hzero : (labels.map (List.count sep)).sum = 0 := by
    rw [List.sum_eq_zero_iff_forall_eq_nat]
    intro n hn
    obtain ⟨x, hx, rfl⟩ := List.mem_map.mp hn
    exact List.count_eq_zero_of_not_mem (hlabels x hx)
  rw [count_labels hne, hzero, Nat.add_zero]

end Labels

/-! ### Sizes

A size that grows with every label orders the names that contain another. -/

section Size

variable {size : List α → ℕ} (hgrows : ∀ a s : List α, size a < size (a ++ sep :: s))

include hgrows in
theorem contains_of_size_le (ha : contains sep a c = true) (hb : contains sep b c = true)
    (hle : size a ≤ size b) : contains sep a b = true := by
  rcases Nat.le_total a.length b.length with hlen | hlen
  · exact contains_of_length_le ha hb hlen
  · rcases contains_cases (contains_of_length_le hb ha hlen) with rfl | ⟨s, rfl⟩
    · exact contains_iff.mpr (List.prefix_refl _)
    · have hlt := hgrows b s
      omega

include hgrows in
theorem eq_of_size_eq (ha : contains sep a c = true) (hb : contains sep b c = true)
    (hsize : size a = size b) : a = b := by
  have hab := contains_of_size_le hgrows ha hb (Nat.le_of_eq hsize)
  rcases contains_cases hab with heq | ⟨s, hs⟩
  · exact heq.symm
  · have hlt := hgrows a s
    rw [← hs] at hlt
    omega

end Size

variable (sep) (name : β → List α) (size : List α → ℕ) (inner : List α)

def longer (found : Option β) (e : β) : Option β :=
  if contains sep (name e) inner = true then
    match found with
    | none => some e
    | some m => if size (name m) < size (name e) then some e else some m
  else found

def longest (entries : List β) : Option β := entries.foldl (longer sep name size inner) none

def Best (entries : List β) : Option β → Prop
  | none => ∀ e ∈ entries, contains sep (name e) inner = false
  | some m => m ∈ entries ∧ contains sep (name m) inner = true ∧
      ∀ e ∈ entries, contains sep (name e) inner = true → size (name e) ≤ size (name m)

variable {sep name size inner}

theorem best_longer {entries : List β} {found : Option β} (e : β)
    (h : Best sep name size inner entries found) :
    Best sep name size inner (entries ++ [e]) (longer sep name size inner found e) := by
  unfold longer
  split_ifs with hcontains
  · cases found with
    | none =>
      refine ⟨List.mem_append_right _ (List.mem_singleton_self e), hcontains, ?_⟩
      intro e' hmem hcontains'
      rcases List.mem_append.mp hmem with hold | hnew
      · rw [h e' hold] at hcontains'
        cases hcontains'
      · cases List.mem_singleton.mp hnew
        exact Nat.le_refl _
    | some m =>
      obtain ⟨hmem, hm, hmax⟩ := h
      dsimp only
      split_ifs with hlt
      · refine ⟨List.mem_append_right _ (List.mem_singleton_self e), hcontains, ?_⟩
        intro e' hmem' hcontains'
        rcases List.mem_append.mp hmem' with hold | hnew
        · exact Nat.le_of_lt (Nat.lt_of_le_of_lt (hmax e' hold hcontains') hlt)
        · cases List.mem_singleton.mp hnew
          exact Nat.le_refl _
      · refine ⟨List.mem_append_left _ hmem, hm, ?_⟩
        intro e' hmem' hcontains'
        rcases List.mem_append.mp hmem' with hold | hnew
        · exact hmax e' hold hcontains'
        · cases List.mem_singleton.mp hnew
          exact Nat.not_lt.mp hlt
  · have hfalse := Bool.eq_false_iff.mpr hcontains
    cases found with
    | none =>
      intro e' hmem
      rcases List.mem_append.mp hmem with hold | hnew
      · exact h e' hold
      · cases List.mem_singleton.mp hnew
        exact hfalse
    | some m =>
      obtain ⟨hmem, hm, hmax⟩ := h
      refine ⟨List.mem_append_left _ hmem, hm, ?_⟩
      intro e' hmem' hcontains'
      rcases List.mem_append.mp hmem' with hold | hnew
      · exact hmax e' hold hcontains'
      · rw [List.mem_singleton.mp hnew, hfalse] at hcontains'
        cases hcontains'

theorem best_longest (entries : List β) :
    Best sep name size inner entries (longest sep name size inner entries) := by
  induction entries using List.reverseRecOn with
  | nil => exact nofun
  | append_singleton entries e ih =>
    unfold longest
    rw [List.foldl_concat]
    exact best_longer e ih

theorem longest_spec {entries : List β} {m : β}
    (h : longest sep name size inner entries = some m) :
    m ∈ entries ∧ contains sep (name m) inner = true ∧
      ∀ e ∈ entries, contains sep (name e) inner = true → size (name e) ≤ size (name m) := by
  have hbest := @best_longest _ _ _ sep name size inner entries
  rw [h] at hbest
  exact hbest

theorem longest_isSome {entries : List β} {e : β} (hmem : e ∈ entries)
    (hcontains : contains sep (name e) inner = true) :
    ∃ m, longest sep name size inner entries = some m := by
  cases hfound : longest sep name size inner entries with
  | some m => exact ⟨m, rfl⟩
  | none =>
    have hbest := @best_longest _ _ _ sep name size inner entries
    rw [hfound] at hbest
    rw [hbest e hmem] at hcontains
    cases hcontains

end Nested
