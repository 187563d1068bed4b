import Mathlib.Logic.Basic

/-!
# Fallible programs

Programs in `Except`, taken apart from a success: what a sequence that succeeds has done, step by
step.
-/

namespace Fallible

variable {ε α β : Type}

def refuse (c : Prop) [Decidable c] (err : ε) : Except ε Unit :=
  if c then .error err else .ok ()

theorem refuse_ok {c : Prop} [Decidable c] {err : ε} {u : Unit} (h : refuse c err = .ok u) : ¬c := by
  intro hc
  rw [refuse, if_pos hc] at h
  cases h

theorem refuse_neg {c : Prop} [Decidable c] {err : ε} (hc : ¬c) : refuse c err = .ok () := by
  rw [refuse, if_neg hc]

theorem bind_ok {x : Except ε α} {f : α → Except ε β} {b : β} (h : (x >>= f) = .ok b) :
    ∃ a, x = .ok a ∧ f a = .ok b := by
  cases x with
  | error e => cases h
  | ok a => exact ⟨a, rfl, h⟩

theorem refuse_bind_ok {c : Prop} [Decidable c] {err : ε} {f : Unit → Except ε β} {b : β}
    (h : (refuse c err >>= f) = .ok b) : ¬c ∧ f () = .ok b := by
  obtain ⟨u, hrefuse, hrest⟩ := bind_ok h
  exact ⟨refuse_ok hrefuse, hrest⟩

theorem foldlM_cons_ok {f : β → α → Except ε β} {a : α} {l : List α} {s s' : β}
    (h : (a :: l).foldlM f s = .ok s') : ∃ s₁, f s a = .ok s₁ ∧ l.foldlM f s₁ = .ok s' := by
  rw [List.foldlM_cons] at h
  exact bind_ok h

theorem foldlM_checks {f : α → Except ε Unit} {l : List α}
    (h : l.foldlM (fun _ a => f a) () = .ok ()) : ∀ a ∈ l, f a = .ok () := by
  induction l with
  | nil => exact fun a ha => absurd ha List.not_mem_nil
  | cons b l ih =>
    obtain ⟨u, hfirst, hrest⟩ := foldlM_cons_ok h
    intro a ha
    rcases List.mem_cons.mp ha with rfl | hmem
    · exact hfirst
    · exact ih hrest a hmem

theorem foldlM_invariant {f : β → α → Except ε β} {inv : β → Prop} {l : List α}
    (step : ∀ s a s', a ∈ l → inv s → f s a = .ok s' → inv s') {s s' : β} (hs : inv s)
    (h : l.foldlM f s = .ok s') : inv s' := by
  induction l generalizing s with
  | nil =>
    cases h
    exact hs
  | cons a l ih =>
    obtain ⟨s₁, hstep, hrest⟩ := foldlM_cons_ok h
    have hfirst := step s a s₁ (List.mem_cons_self ..) hs hstep
    exact ih (fun s a' s' hmem => step s a' s' (List.mem_cons_of_mem a hmem)) hfirst hrest

end Fallible
