import RenoP.Lib.Nested

/-!
# Codes whose words show their own end

A word of a self-delimiting code is found again whatever follows it.
-/

namespace PrefixCode

variable {α β γ : Type}

def SelfDelimiting (code : α → List β) : Prop :=
  ∀ a b u v, code a ++ u = code b ++ v → a = b ∧ u = v

variable {code : α → List β}

theorem selfDelimiting_terminated {stop : β} (hinj : Function.Injective code)
    (hstop : ∀ a, stop ∉ code a) : SelfDelimiting fun a => code a ++ [stop] := by
  intro a b u v h
  rw [List.append_assoc, List.append_assoc] at h
  obtain ⟨hword, hrest⟩ := Nested.first_inj (hstop a) (hstop b) h
  exact ⟨hinj hword, hrest⟩

theorem selfDelimiting_lengthPrefixed {number : ℕ → List β} (h : SelfDelimiting number) :
    SelfDelimiting fun l : List β => number l.length ++ l := by
  intro l l' u v heq
  rw [List.append_assoc, List.append_assoc] at heq
  obtain ⟨hlength, hrest⟩ := h _ _ _ _ heq
  exact List.append_inj hrest hlength

theorem selfDelimiting_option {absent present : β} (hne : absent ≠ present)
    (h : SelfDelimiting code) :
    SelfDelimiting fun o : Option α => o.elim [absent] fun a => present :: code a := by
  intro o o' u v heq
  cases o with
  | none =>
    cases o' with
    | none => exact ⟨rfl, (List.cons.inj heq).2⟩
    | some b => exact absurd (List.cons.inj heq).1 hne
  | some a =>
    cases o' with
    | none => exact absurd (List.cons.inj heq).1 hne.symm
    | some b =>
      obtain ⟨hword, hrest⟩ := h a b u v (List.cons.inj heq).2
      exact ⟨congrArg some hword, hrest⟩

theorem SelfDelimiting.flatMap (h : SelfDelimiting code) {as bs : List α} {u v : List β}
    (hlength : as.length = bs.length) (heq : as.flatMap code ++ u = bs.flatMap code ++ v) :
    as = bs ∧ u = v := by
  induction as generalizing bs with
  | nil =>
    cases List.length_eq_zero_iff.mp hlength.symm
    exact ⟨rfl, heq⟩
  | cons a as ih =>
    cases bs with
    | nil => cases hlength
    | cons b bs =>
      rw [List.flatMap_cons, List.flatMap_cons, List.append_assoc, List.append_assoc] at heq
      obtain ⟨hfirst, hrest⟩ := h a b _ _ heq
      obtain ⟨hwords, hend⟩ := ih (Nat.succ.inj hlength) hrest
      exact ⟨by rw [hfirst, hwords], hend⟩

theorem SelfDelimiting.flatMap_injective (h : SelfDelimiting code) (hne : ∀ a, code a ≠ []) :
    Function.Injective fun as : List α => as.flatMap code := by
  intro as
  induction as with
  | nil =>
    intro bs heq
    cases bs with
    | nil => rfl
    | cons b bs => exact absurd (List.append_eq_nil_iff.mp heq.symm).1 (hne b)
  | cons a as ih =>
    intro bs heq
    cases bs with
    | nil => exact absurd (List.append_eq_nil_iff.mp heq).1 (hne a)
    | cons b bs =>
      obtain ⟨hfirst, hrest⟩ := h a b _ _ heq
      rw [hfirst, ih hrest]

end PrefixCode
