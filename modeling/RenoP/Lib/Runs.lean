import Mathlib.Data.List.Basic
import Mathlib.Data.Int.Notation

/-!
# Runs of calls

A run is a list of calls taken from the left. `Along` says that every call of it meets a
condition in the state in which it is made.
-/

namespace Runs

variable {S A : Type} (next : S → A → S)

def Along (ok : S → A → Prop) : S → List A → Prop
  | _, [] => True
  | s, a :: as => ok s a ∧ Along ok (next s a) as

def Through (p : S → Prop) : S → List A → Prop
  | s, [] => p s
  | s, a :: as => p s ∧ Through p (next s a) as

instance decidableAlong {ok : S → A → Prop} [∀ s a, Decidable (ok s a)] :
    ∀ (as : List A) (s : S), Decidable (Along next ok s as)
  | [], _ => instDecidableTrue
  | a :: as, s => @instDecidableAnd _ _ _ (decidableAlong as (next s a))

variable {next}

theorem Along.invariant {ok : S → A → Prop} {inv : S → Prop}
    (step : ∀ s a, inv s → ok s a → inv (next s a)) {as : List A} :
    ∀ {s : S}, inv s → Along next ok s as → inv (as.foldl next s) := by
  induction as with
  | nil =>
    intro s hs _
    exact hs
  | cons a as ih =>
    intro s hs hok
    exact ih (step s a hs hok.1) hok.2

theorem Along.invariant_of_forall {ok : S → A → Prop} {all : A → Prop} {inv : S → Prop}
    (step : ∀ s a, inv s → all a → ok s a → inv (next s a)) {as : List A} :
    ∀ {s : S}, inv s → (∀ a ∈ as, all a) → Along next ok s as → inv (as.foldl next s) := by
  induction as with
  | nil =>
    intro s hs _ _
    exact hs
  | cons a as ih =>
    intro s hs hall hok
    have hstep := step s a hs (hall a (List.mem_cons_self ..)) hok.1
    exact ih hstep (fun b hb => hall b (List.mem_cons_of_mem a hb)) hok.2

theorem along_of_forall {all : A → Prop} {as : List A} :
    ∀ {s : S}, (∀ a ∈ as, all a) → Along next (fun _ a => all a) s as := by
  induction as with
  | nil =>
    intro s _
    exact trivial
  | cons a as ih =>
    intro s hall
    exact ⟨hall a (List.mem_cons_self ..), ih fun b hb => hall b (List.mem_cons_of_mem a hb)⟩

theorem Along.and {ok ok' : S → A → Prop} {as : List A} :
    ∀ {s : S}, Along next ok s as → Along next ok' s as →
      Along next (fun s a => ok s a ∧ ok' s a) s as := by
  induction as with
  | nil =>
    intro s _ _
    exact trivial
  | cons a as ih =>
    intro s h h'
    exact ⟨⟨h.1, h'.1⟩, ih h.2 h'.2⟩

theorem Along.mono {ok ok' : S → A → Prop} (h : ∀ s a, ok s a → ok' s a) {as : List A} :
    ∀ {s : S}, Along next ok s as → Along next ok' s as := by
  induction as with
  | nil =>
    intro s _
    exact trivial
  | cons a as ih =>
    intro s hok
    exact ⟨h s a hok.1, ih hok.2⟩

theorem Through.mono {p q : S → Prop} (h : ∀ s, p s → q s) {as : List A} :
    ∀ {s : S}, Through next p s as → Through next q s as := by
  induction as with
  | nil =>
    intro s hp
    exact h s hp
  | cons a as ih =>
    intro s hp
    exact ⟨h s hp.1, ih hp.2⟩

theorem Along.of_through {ok ok' : S → A → Prop} {p : S → Prop}
    (h : ∀ s a, p s → ok s a → ok' s a) {as : List A} :
    ∀ {s : S}, Through next p s as → Along next ok s as → Along next ok' s as := by
  induction as with
  | nil =>
    intro s _ _
    exact trivial
  | cons a as ih =>
    intro s hp hok
    exact ⟨h s a hp.1 hok.1, ih hp.2 hok.2⟩

theorem Along.through {ok : S → A → Prop} {p inv : S → Prop} (gives : ∀ s, inv s → p s)
    (keeps : ∀ s a, inv s → ok s a → inv (next s a)) {as : List A} :
    ∀ {s : S}, inv s → Along next ok s as → Through next p s as := by
  induction as with
  | nil =>
    intro s hs _
    exact gives s hs
  | cons a as ih =>
    intro s hs hok
    exact ⟨gives s hs, ih (keeps s a hs hok.1) hok.2⟩

theorem along_append {ok : S → A → Prop} {as bs : List A} :
    ∀ {s : S}, Along next ok s (as ++ bs) →
      Along next ok s as ∧ Along next ok (as.foldl next s) bs := by
  induction as with
  | nil =>
    intro s h
    exact ⟨trivial, h⟩
  | cons a as ih =>
    intro s h
    obtain ⟨has, hbs⟩ := ih h.2
    exact ⟨⟨h.1, has⟩, hbs⟩

def times (next : S → A → S) (event : S → A → Bool) : S → List A → ℕ
  | _, [] => 0
  | s, a :: as => (if event s a then 1 else 0) + times next event (next s a) as

/-- An event that happens exactly when a lasting condition begins happens once in a run at whose
end the condition holds, and never in any other. -/
theorem times_eq {event : S → A → Bool} {inv holds : S → Prop} {ok : A → Prop}
    [DecidablePred holds] (step : ∀ s a, inv s → ok a → inv (next s a))
    (lasts : ∀ s a, inv s → ok a → holds s → holds (next s a) ∧ event s a = false)
    (begins : ∀ s a, inv s → ok a → ¬holds s → (event s a = true ↔ holds (next s a)))
    (as : List A) : ∀ {s : S}, (∀ a ∈ as, ok a) → inv s → ¬holds s →
      times next event s as = if holds (as.foldl next s) then 1 else 0 := by
  have hheld : ∀ (as : List A) {s : S}, (∀ a ∈ as, ok a) → inv s → holds s →
      holds (as.foldl next s) ∧ times next event s as = 0 := by
    intro as
    induction as with
    | nil =>
      intro s _ _ h
      exact ⟨h, rfl⟩
    | cons a as ih =>
      intro s hok hs h
      have ha := hok a (List.mem_cons_self ..)
      obtain ⟨hnext, hevent⟩ := lasts s a hs ha h
      obtain ⟨hend, htimes⟩ :=
        ih (fun b hb => hok b (List.mem_cons_of_mem a hb)) (step s a hs ha) hnext
      constructor
      · exact hend
      · simp only [times, hevent, Bool.false_eq_true, if_false, htimes]
  induction as with
  | nil =>
    intro s _ _ h
    simp only [times, List.foldl_nil, h, if_false]
  | cons a as ih =>
    intro s hok hs h
    have ha := hok a (List.mem_cons_self ..)
    have has : ∀ b ∈ as, ok b := fun b hb => hok b (List.mem_cons_of_mem a hb)
    have hbegin := begins s a hs ha h
    rw [List.foldl_cons]
    by_cases hnext : holds (next s a)
    · obtain ⟨hend, htimes⟩ := hheld as has (step s a hs ha) hnext
      simp only [times, hbegin.mpr hnext, htimes, hend, if_true]
    · have hevent : event s a = false := Bool.eq_false_iff.mpr fun he => hnext (hbegin.mp he)
      simp only [times, hevent, Bool.false_eq_true, if_false, Nat.zero_add]
      exact ih has (step s a hs ha) hnext

theorem through_iff_along {ok : S → A → Prop} {p : S → Prop}
    (step : ∀ s a, p s → (p (next s a) ↔ ok s a)) (as : List A) :
    ∀ {s : S}, p s → (Through next p s as ↔ Along next ok s as) := by
  induction as with
  | nil =>
    intro s hs
    exact ⟨fun _ => trivial, fun _ => hs⟩
  | cons a as ih =>
    intro s hs
    constructor
    · intro h
      have hnext : p (next s a) := by
        cases as with
        | nil => exact h.2
        | cons b bs => exact h.2.1
      exact ⟨(step s a hs).mp hnext, (ih hnext).mp h.2⟩
    · intro h
      exact ⟨hs, (ih ((step s a hs).mpr h.1)).mpr h.2⟩

theorem Through.head {p : S → Prop} {s : S} {as : List A} (h : Through next p s as) : p s := by
  cases as with
  | nil => exact h
  | cons a as => exact h.1

theorem Through.last {p : S → Prop} {as : List A} :
    ∀ {s : S}, Through next p s as → p (as.foldl next s) := by
  induction as with
  | nil => exact fun h => h
  | cons a as ih => exact fun h => ih h.2

/-- What two states of a step have in common while a condition lasts, the ends of a run have in
common through which it lasts. -/
theorem Through.related {p : S → Prop} {R : S → S → Prop} (hrefl : ∀ s, R s s)
    (htrans : ∀ s s₁ s₂, p s₁ → R s s₁ → R s₁ s₂ → R s s₂)
    (step : ∀ s a, p s → p (next s a) → R s (next s a)) {as : List A} :
    ∀ {s : S}, Through next p s as → R s (as.foldl next s) := by
  induction as with
  | nil =>
    intro s _
    exact hrefl s
  | cons a as ih =>
    intro s h
    have hhead := step s a h.1 h.2.head
    exact htrans s (next s a) _ h.2.head hhead (ih h.2)

/-- A condition is exact for a run where it keeps an invariant that gives the property, and where
a step that fails it ends the property. -/
theorem through_iff_along_of_invariant {ok : S → A → Prop} {p inv : S → Prop}
    (gives : ∀ s, inv s → p s) (keeps : ∀ s a, inv s → ok s a → inv (next s a))
    (breaks : ∀ s a, inv s → ¬ok s a → ¬p (next s a)) (as : List A) :
    ∀ {s : S}, inv s → (Through next p s as ↔ Along next ok s as) := by
  induction as with
  | nil =>
    intro s hs
    exact ⟨fun _ => trivial, fun _ => gives s hs⟩
  | cons a as ih =>
    intro s hs
    constructor
    · intro h
      have hok : ok s a := by
        by_contra hnot
        exact breaks s a hs hnot h.2.head
      exact ⟨hok, (ih (keeps s a hs hok)).mp h.2⟩
    · intro h
      exact ⟨gives s hs, (ih (keeps s a hs h.1)).mpr h.2⟩

/-- What is due within some ticks is due within fewer of them after a run, whatever else the run
does. -/
theorem countdown {inv : S → Prop} {tick : A → Bool} {due : ℕ → S → Prop}
    (keeps : ∀ s a, inv s → inv (next s a))
    (step : ∀ n s a, inv s → due n s → due (if tick a then n - 1 else n) (next s a))
    (as : List A) : ∀ {n : ℕ} {s : S}, inv s → due n s →
      due (n - as.countP tick) (as.foldl next s) := by
  induction as with
  | nil =>
    intro n s _ h
    exact h
  | cons a as ih =>
    intro n s hs h
    have hrest := ih (keeps s a hs) (step n s a hs h)
    rw [List.countP_cons, List.foldl_cons]
    by_cases htick : tick a = true
    · simp only [htick, if_true] at hrest ⊢
      rwa [Nat.add_comm, ← Nat.sub_sub]
    · rw [Bool.not_eq_true] at htick
      simpa only [htick, Bool.false_eq_true, if_false, Nat.add_zero] using hrest

def total (next : S → A → S) (cost : S → A → ℤ) : S → List A → ℤ
  | _, [] => 0
  | s, a :: as => cost s a + total next cost (next s a) as

theorem total_le_of_potential {cost : S → A → ℤ} {inv : S → Prop} {ok : A → Prop} {φ : S → ℤ}
    (step : ∀ s a, inv s → ok a → inv (next s a) ∧ cost s a + φ (next s a) ≤ φ s) {as : List A} :
    ∀ {s : S}, inv s → (∀ a ∈ as, ok a) →
      inv (as.foldl next s) ∧ total next cost s as + φ (as.foldl next s) ≤ φ s := by
  induction as with
  | nil =>
    intro s hs _
    simp only [total, List.foldl_nil, Int.zero_add]
    exact ⟨hs, Int.le_refl _⟩
  | cons a as ih =>
    intro s hs hok
    obtain ⟨hnext, hcost⟩ := step s a hs (hok a (List.mem_cons_self ..))
    obtain ⟨hend, hrest⟩ := ih hnext fun b hb => hok b (List.mem_cons_of_mem a hb)
    simp only [total, List.foldl_cons]
    exact ⟨hend, by omega⟩

end Runs
