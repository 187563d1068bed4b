import Mathlib.Data.Prod.Lex
import Mathlib.Data.List.Basic

/-!
# Stable sorts by keys

A sort takes a function that says whether a row is before another.
-/

namespace StableSort

variable {α β γ : Type} [LinearOrder β] [LinearOrder γ] {less : α → α → Bool} {key : α → β}

def Compares (less : α → α → Bool) (key : α → β) : Prop := ∀ a b, less a b = true ↔ key a < key b

def sort (less : α → α → Bool) (l : List α) : List α := l.mergeSort fun a b => !less b a

theorem compares_decide (key : α → β) {lt : ∀ a b, Decidable (key a < key b)} :
    Compares (fun a b => decide (key a < key b)) key :=
  fun _ _ => decide_eq_true_iff

theorem Compares.lex {part : α → γ} {ne : ∀ a b, Decidable (part a ≠ part b)}
    {lt : ∀ a b, Decidable (part a < part b)} (h : Compares less key) :
    Compares (fun a b => if part a ≠ part b then decide (part a < part b) else less a b)
      fun a => toLex (part a, key a) := by
  intro a b
  rw [Prod.Lex.toLex_lt_toLex]
  dsimp only
  split_ifs with hpart
  · rw [decide_eq_true_iff]
    exact ⟨Or.inl, fun hlt => hlt.resolve_right fun heq => hpart heq.1⟩
  · rw [not_not] at hpart
    rw [h a b]
    exact ⟨fun hlt => Or.inr ⟨hpart, hlt⟩, fun hlt =>
      (hlt.resolve_left fun hless => absurd hpart hless.ne).2⟩

theorem Compares.not_less (h : Compares less key) (a b : α) :
    (!less b a) = true ↔ key a ≤ key b := by
  rw [Bool.not_eq_true', ← Bool.not_eq_true, h b a, not_lt]

theorem Compares.trans (h : Compares less key) (a b c : α) (hab : (!less b a) = true)
    (hbc : (!less c b) = true) : (!less c a) = true := by
  rw [h.not_less] at hab hbc ⊢
  exact hab.trans hbc

theorem Compares.total (h : Compares less key) (a b : α) : (!less b a || !less a b) = true := by
  rw [Bool.or_eq_true, h.not_less, h.not_less]
  exact le_total (key a) (key b)

theorem sort_perm (less : α → α → Bool) (l : List α) : (sort less l).Perm l :=
  List.mergeSort_perm l _

theorem Compares.sorted (h : Compares less key) (l : List α) :
    (sort less l).Pairwise fun a b => key a ≤ key b :=
  (List.pairwise_mergeSort h.trans h.total l).imp fun {a b} hab => (h.not_less a b).mp hab

theorem Compares.stable (h : Compares less key) {l : List α} {a b : α} (hab : key a ≤ key b)
    (hsublist : [a, b].Sublist l) : [a, b].Sublist (sort less l) :=
  List.pair_sublist_mergeSort h.trans h.total ((h.not_less a b).mpr hab) hsublist

theorem mem_of_pair {l before after : List α} {a b : α} (hl : l = before ++ b :: after)
    (hnodup : l.Nodup) (hpair : [a, b].Sublist l) : a ∈ before := by
  subst hl
  obtain ⟨left, right, hsplit, hleft, hright⟩ := List.sublist_append_iff.mp hpair
  rw [List.nodup_append] at hnodup
  obtain ⟨-, hafter, hdisjoint⟩ := hnodup
  have hnot : b ∉ before := fun hmem => hdisjoint b hmem b (List.mem_cons_self ..) rfl
  match left, hsplit with
  | [], hsplit =>
    rw [List.nil_append] at hsplit
    rw [← hsplit] at hright
    have hin : b ∈ after := by
      rcases List.sublist_cons_iff.mp hright with hrest | ⟨rest, hcons, hrest⟩
      · exact hrest.subset (List.mem_cons_of_mem _ (List.mem_singleton.mpr rfl))
      · cases hcons
        exact hrest.subset (List.mem_singleton.mpr rfl)
    exact absurd hin (List.nodup_cons.mp hafter).1
  | [x], hsplit =>
    cases hsplit
    exact hleft.subset (List.mem_singleton.mpr rfl)
  | x :: y :: rest, hsplit =>
    rw [List.cons_append, List.cons_append] at hsplit
    obtain ⟨-, rfl, -⟩ : a = x ∧ b = y ∧ [] = rest ++ right := by
      simpa using hsplit
    exact absurd (hleft.subset (List.mem_cons_of_mem _ (List.mem_cons_self ..))) hnot

end StableSort
