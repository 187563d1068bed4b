import Mathlib.Order.PiLex
import Mathlib.Data.Prod.Lex
import Mathlib.Data.List.Lex
import Mathlib.Data.List.GetD

/-!
# Three-way comparisons

`threeWay` is the comparison of a linear order with the results -1, 0 and 1. Lists are compared as
infinite sequences: `padded` continues a list with one element.
-/

namespace Comparison

variable {α β : Type}

def padded (p : α) (l : List α) : Lex (ℕ → α) := toLex fun i => l.getD i p

theorem padded_zero (p : α) (l : List α) : padded p l 0 = l.headD p := by cases l <;> rfl

theorem padded_succ (p : α) (l : List α) (i : ℕ) : padded p l (i + 1) = padded p l.tail i := by
  cases l <;> rfl

theorem padded_inj {p : α} {l l' : List α} (h : padded p l = padded p l')
    (hlength : l.length = l'.length) : l = l' := by
  apply List.ext_getElem hlength
  intro i hi hi'
  have hat : l.getD i p = l'.getD i p := congrFun (toLex_inj.mp h) i
  rwa [List.getD_eq_getElem _ _ hi, List.getD_eq_getElem _ _ hi'] at hat

theorem padded_lt [LinearOrder α] (p : α) (l l' : List α) :
    padded p l < padded p l' ↔ l.headD p < l'.headD p ∨
      l.headD p = l'.headD p ∧ padded p l.tail < padded p l'.tail := by
  rw [← padded_zero, ← padded_zero]
  constructor
  · rintro ⟨i, hbefore, hlt⟩
    cases i with
    | zero => exact .inl hlt
    | succ i =>
      refine .inr ⟨hbefore 0 (Nat.succ_pos i), i, ?_, ?_⟩
      · intro j hj
        have heq := hbefore (j + 1) (Nat.succ_lt_succ hj)
        rwa [padded_succ, padded_succ] at heq
      · rwa [padded_succ, padded_succ] at hlt
  · rintro (hlt | ⟨heq, i, hbefore, hlt⟩)
    · exact ⟨0, fun j hj => absurd hj (Nat.not_lt_zero j), hlt⟩
    · refine ⟨i + 1, ?_, ?_⟩
      · intro j hj
        cases j with
        | zero => exact heq
        | succ j =>
          rw [padded_succ, padded_succ]
          exact hbefore j (Nat.lt_of_succ_lt_succ hj)
      · rw [padded_succ, padded_succ]
        exact hlt

def threeWay [LinearOrder α] (x y : α) : ℤ := if x < y then -1 else if y < x then 1 else 0

section

variable [LinearOrder α] [LinearOrder β] {x y : α}

theorem threeWay_of_lt (h : x < y) : threeWay x y = -1 := if_pos h

theorem threeWay_of_gt (h : y < x) : threeWay x y = 1 := by
  unfold threeWay
  rw [if_neg h.not_gt, if_pos h]

@[simp] theorem threeWay_self (x : α) : threeWay x x = 0 := by simp [threeWay]

theorem threeWay_congr {x' y' : β} (hlt : x < y ↔ x' < y') (hgt : y < x ↔ y' < x') :
    threeWay x y = threeWay x' y' := by
  simp only [threeWay, hlt, hgt]

theorem threeWay_neg (x y : α) : threeWay x y = -threeWay y x := by
  rcases lt_trichotomy x y with h | h | h
  · rw [threeWay_of_lt h, threeWay_of_gt h]
  · subst h
    rw [threeWay_self]
    rfl
  · rw [threeWay_of_lt h, threeWay_of_gt h]
    rfl

theorem threeWay_nonpos : threeWay x y ≤ 0 ↔ x ≤ y := by
  rcases lt_trichotomy x y with h | h | h
  · simp [threeWay_of_lt h, h.le]
  · simp [h]
  · simp [threeWay_of_gt h, h]

theorem threeWay_eq_zero : threeWay x y = 0 ↔ x = y := by
  rcases lt_trichotomy x y with h | h | h
  · simp [threeWay_of_lt h, h.ne]
  · simp [h]
  · simp [threeWay_of_gt h, h.ne']

theorem threeWay_first (x y : α) (r : ℤ) :
    (if x ≠ y then if x < y then -1 else 1 else r) =
      if threeWay x y = 0 then r else threeWay x y := by
  rcases lt_trichotomy x y with h | h | h
  · rw [threeWay_of_lt h, if_pos h.ne, if_pos h]
    rfl
  · rw [h, threeWay_self, if_neg (not_not.mpr rfl), if_pos rfl]
  · rw [threeWay_of_gt h, if_pos h.ne', if_neg h.not_gt]
    rfl

theorem threeWay_toLex (a c : α) (b d : β) :
    threeWay (toLex (a, b)) (toLex (c, d)) =
      if threeWay a c = 0 then threeWay b d else threeWay a c := by
  have hpair : ∀ (a c : α) (b d : β), toLex (a, b) < toLex (c, d) ↔ a < c ∨ a = c ∧ b < d :=
    fun _ _ _ _ => Prod.Lex.toLex_lt_toLex
  rcases lt_trichotomy a c with h | h | h
  · rw [threeWay_of_lt h, threeWay_of_lt ((hpair ..).mpr (.inl h))]
    rfl
  · subst h
    rw [threeWay_self, if_pos rfl]
    exact threeWay_congr (by simp [hpair]) (by simp [hpair])
  · rw [threeWay_of_gt h, threeWay_of_gt ((hpair ..).mpr (.inl h))]
    rfl

theorem threeWay_padded (p : α) (l l' : List α) :
    threeWay (padded p l) (padded p l') =
      if threeWay (l.headD p) (l'.headD p) = 0 then threeWay (padded p l.tail) (padded p l'.tail)
      else threeWay (l.headD p) (l'.headD p) := by
  rcases lt_trichotomy (l.headD p) (l'.headD p) with h | h | h
  · rw [threeWay_of_lt h, threeWay_of_lt ((padded_lt p l l').mpr (.inl h))]
    rfl
  · rw [h, threeWay_self, if_pos rfl]
    refine threeWay_congr ((padded_lt p l l').trans ?_) ((padded_lt p l' l).trans ?_)
    · simp only [h, lt_irrefl, false_or, true_and]
      rfl
    · simp only [h, lt_irrefl, false_or, true_and]
      rfl
  · rw [threeWay_of_gt h, threeWay_of_gt ((padded_lt p l' l).mpr (.inl h))]
    rfl

end

theorem lt_iff_map_lt [LT α] [LT β] {f : α → β} {s t : List α}
    (hlt : ∀ c ∈ s, ∀ d ∈ t, c < d ↔ f c < f d) (heq : ∀ c ∈ s, ∀ d ∈ t, f c = f d → c = d) :
    s < t ↔ s.map f < t.map f := by
  induction s generalizing t with
  | nil => cases t <;> simp
  | cons c s ih =>
    cases t with
    | nil => simp
    | cons d t =>
      have hc := List.mem_cons_self (a := c) (l := s)
      have hd := List.mem_cons_self (a := d) (l := t)
      have hrest := ih (fun x hx y hy => hlt x (List.mem_cons_of_mem c hx) y
        (List.mem_cons_of_mem d hy)) (fun x hx y hy => heq x (List.mem_cons_of_mem c hx) y
        (List.mem_cons_of_mem d hy))
      have hsame : c = d ↔ f c = f d := ⟨congrArg f, heq c hc d hd⟩
      rw [List.map_cons, List.map_cons, List.cons_lt_cons_iff, List.cons_lt_cons_iff,
        hlt c hc d hd, hsame, hrest]

end Comparison
