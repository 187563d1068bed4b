import Mathlib.Algebra.Order.BigOperators.Group.Finset

/-!
# Reader-writer locks that are taken in order

Threads take locks for reading or writing, one after the other, and release them in the opposite
order. A writer announces itself before it waits for the readers, and no reader enters meanwhile.
-/

namespace OrderedLocks

inductive Mode where
  | read
  | write

/-- The locks that a thread still has to take, and those it holds with the last one first. -/
structure Thread (L : Type) where
  todo : List (L × Mode)
  announced : Bool
  held : List (L × Mode)

inductive Stage where
  | shared
  | announced
  | exclusive

/-- Two threads may be at stages of one lock whose ranks are at most one together. -/
def Stage.rank : Stage → ℕ
  | .shared => 0
  | .announced => 1
  | .exclusive => 2

section

variable {L ι : Type}

def Thread.idle : Thread L := ⟨[], false, []⟩

def Thread.Has (x : Thread L) (l : L) : Stage → Prop
  | .shared => (l, .read) ∈ x.held
  | .announced => x.announced = true ∧ ∃ rest, x.todo = (l, .write) :: rest
  | .exclusive => (l, .write) ∈ x.held

/-- An upper bound of the turns that a thread still has. -/
def Thread.work (x : Thread L) : ℕ :=
  3 * x.todo.length + x.held.length + if x.announced then 0 else 1

def Admits (s : ι → Thread L) (l : L) (k : Stage) : Prop :=
  ∀ u k', (s u).Has l k' → k.rank + k'.rank ≤ 1

inductive Turn (s : ι → Thread L) (t : ι) : Thread L → Prop where
  | read {l : L} {rest : List (L × Mode)} (htodo : (s t).todo = (l, .read) :: rest)
      (hadmits : Admits s l .shared) : Turn s t ⟨rest, false, (l, .read) :: (s t).held⟩
  | announce {l : L} {rest : List (L × Mode)} (htodo : (s t).todo = (l, .write) :: rest)
      (hquiet : (s t).announced = false) (hadmits : Admits s l .announced) :
      Turn s t ⟨(l, .write) :: rest, true, (s t).held⟩
  | write {l : L} {rest : List (L × Mode)} (htodo : (s t).todo = (l, .write) :: rest)
      (hannounced : (s t).announced = true) (hreaders : ∀ u, ¬(s u).Has l .shared) :
      Turn s t ⟨rest, false, (l, .write) :: (s t).held⟩
  | release {x : L × Mode} {rest : List (L × Mode)} (htodo : (s t).todo = [])
      (hheld : (s t).held = x :: rest) : Turn s t ⟨[], (s t).announced, rest⟩

variable {s : ι → Thread L} {t : ι} {x : Thread L}

theorem Turn.work_lt (h : Turn s t x) : x.work < (s t).work := by
  cases h with
  | read htodo _ =>
    simp only [Thread.work, htodo, List.length_cons, Bool.false_eq_true, if_false]
    omega
  | announce htodo hquiet _ =>
    simp only [Thread.work, htodo, hquiet, Bool.false_eq_true, if_false, if_true]
    omega
  | write htodo hannounced _ =>
    simp only [Thread.work, htodo, hannounced, List.length_cons, Bool.false_eq_true, if_false,
      if_true]
    omega
  | release htodo hheld =>
    simp only [Thread.work, htodo, hheld, List.length_cons]
    omega

/-- What a thread has of a lock after it has taken one, it had before or has just taken. -/
theorem has_taken {x : Thread L} {l l' : L} {m : Mode} {rest : List (L × Mode)} {k : Stage}
    (h : (⟨rest, false, (l, m) :: x.held⟩ : Thread L).Has l' k) : x.Has l' k ∨
      l' = l ∧ k.rank = match m with | .read => 0 | .write => 2 := by
  cases k with
  | announced => cases h.1
  | shared =>
    rcases List.mem_cons.mp h with heq | hmem
    · cases heq
      exact Or.inr ⟨rfl, rfl⟩
    · exact Or.inl hmem
  | exclusive =>
    rcases List.mem_cons.mp h with heq | hmem
    · cases heq
      exact Or.inr ⟨rfl, rfl⟩
    · exact Or.inl hmem

variable [DecidableEq ι]

def Moves (s s' : ι → Thread L) : Prop := ∃ t x, Turn s t x ∧ s' = Function.update s t x

/-- `plans` are the lists of locks that a call may ask for. -/
inductive Step (plans : List (L × Mode) → Prop) (s : ι → Thread L) : (ι → Thread L) → Prop where
  | start (t : ι) {p : List (L × Mode)} (hidle : s t = .idle) (hplan : plans p) :
      Step plans s (Function.update s t ⟨p, false, []⟩)
  | tryLock (t : ι) {l : L} (hidle : s t = .idle) (hadmits : Admits s l .exclusive) :
      Step plans s (Function.update s t ⟨[], false, [(l, .write)]⟩)
  | move {s' : ι → Thread L} (hmoves : Moves s s') : Step plans s s'

abbrev Reachable (plans : List (L × Mode) → Prop) (s : ι → Thread L) : Prop :=
  Relation.ReflTransGen (Step plans) (fun _ => .idle) s

/-- Turns come to an end when no call is begun any more. -/
theorem acc_moves [Fintype ι] (s : ι → Thread L) : Acc (fun s' s => Moves s s') s := by
  generalize hk : ∑ u, (s u).work = k
  induction k using Nat.strong_induction_on generalizing s with
  | _ k ih =>
    refine Acc.intro s fun s' ⟨t, x, hturn, hs'⟩ => ih _ ?_ s' rfl
    rw [← hk, hs']
    refine Finset.sum_lt_sum (fun u _ => ?_) ⟨t, Finset.mem_univ t, ?_⟩
    · by_cases hu : u = t
      · rw [hu, Function.update_self]
        exact hturn.work_lt.le
      · rw [Function.update_of_ne hu]
    · rw [Function.update_self]
      exact hturn.work_lt

end

variable {L ι : Type} [LinearOrder L] [DecidableEq ι]

def Ascending (p : List (L × Mode)) : Prop := (p.map Prod.fst).Pairwise (· < ·)

structure Inv (s : ι → Thread L) : Prop where
  ascending : ∀ t, Ascending ((s t).held.reverse ++ (s t).todo)
  apart : ∀ t u, t ≠ u → ∀ l k k', (s t).Has l k → (s u).Has l k' → k.rank + k'.rank ≤ 1

variable {plans : List (L × Mode) → Prop} {s s' : ι → Thread L} {t : ι} {x : Thread L}

theorem Inv.update (hi : Inv s) (hascending : Ascending (x.held.reverse ++ x.todo))
    (hnew : ∀ l k, x.Has l k →
      (s t).Has l k ∨ ∀ u, u ≠ t → ∀ k', (s u).Has l k' → k.rank + k'.rank ≤ 1) :
    Inv (Function.update s t x) := by
  have hbeside : ∀ u, u ≠ t → ∀ l k k', x.Has l k → (s u).Has l k' → k.rank + k'.rank ≤ 1 := by
    intro u hu l k k' hx hk'
    rcases hnew l k hx with hold | hfresh
    · exact hi.apart t u hu.symm l k k' hold hk'
    · exact hfresh u hu k' hk'
  constructor
  · intro u
    by_cases hu : u = t
    · rw [hu, Function.update_self]
      exact hascending
    · rw [Function.update_of_ne hu]
      exact hi.ascending u
  · intro u v hne l k k' hk hk'
    by_cases hu : u = t
    · have hv : v ≠ t := fun hv => hne (hu.trans hv.symm)
      rw [hu, Function.update_self] at hk
      rw [Function.update_of_ne hv] at hk'
      exact hbeside v hv l k k' hk hk'
    · rw [Function.update_of_ne hu] at hk
      by_cases hv : v = t
      · rw [hv, Function.update_self] at hk'
        exact Nat.add_comm _ _ ▸ hbeside u hu l k' k hk' hk
      · rw [Function.update_of_ne hv] at hk'
        exact hi.apart u v hne l k k' hk hk'

theorem Inv.turn (hi : Inv s) (h : Turn s t x) : Inv (Function.update s t x) := by
  have htaken : ∀ {l m rest}, (s t).todo = (l, m) :: rest →
      Ascending (((l, m) :: (s t).held).reverse ++ rest) := by
    intro l m rest htodo
    have hall := hi.ascending t
    rw [htodo] at hall
    rw [List.reverse_cons, List.append_assoc]
    exact hall
  cases h with
  | read htodo hadmits =>
    refine hi.update (htaken htodo) fun l k hk => ?_
    rcases has_taken hk with hold | ⟨rfl, hrank⟩
    · exact Or.inl hold
    · exact Or.inr fun u _ k' hk' => hrank ▸ hadmits u k' hk'
  | @announce l rest htodo hquiet hadmits =>
    refine hi.update (htodo ▸ hi.ascending t) fun l' k hk => ?_
    cases k with
    | shared => exact Or.inl hk
    | exclusive => exact Or.inl hk
    | announced =>
      obtain ⟨rest', hrest⟩ := hk.2
      cases hrest
      exact Or.inr fun u _ k' hk' => hadmits u k' hk'
  | @write l rest htodo hannounced hreaders =>
    refine hi.update (htaken htodo) fun l' k hk => ?_
    rcases has_taken hk with hold | ⟨rfl, -⟩
    · exact Or.inl hold
    · refine Or.inr fun u hu k' hk' => ?_
      have hfirst := hi.apart t u hu.symm l' .announced k' ⟨hannounced, rest, htodo⟩ hk'
      cases k' with
      | shared => exact absurd hk' (hreaders u)
      | announced => exact absurd hfirst (by decide)
      | exclusive => exact absurd hfirst (by decide)
  | @release y rest htodo hheld =>
    have hkept : ∀ z ∈ rest, z ∈ (s t).held := fun z hz => hheld ▸ List.mem_cons_of_mem y hz
    refine hi.update ?_ fun l k hk => Or.inl ?_
    · have hall := hi.ascending t
      rw [hheld, htodo, List.reverse_cons, List.append_nil] at hall
      rw [List.append_nil]
      unfold Ascending at hall ⊢
      rw [List.map_append] at hall
      exact (List.pairwise_append.mp hall).1
    · cases k with
      | shared => exact hkept _ hk
      | exclusive => exact hkept _ hk
      | announced =>
        obtain ⟨r, hr⟩ := hk.2
        cases hr

theorem inv_of_reachable (hplans : ∀ p, plans p → Ascending p) (h : Reachable plans s) :
    Inv s := by
  have hnone : ∀ {p : List (L × Mode)} {l k}, ¬(⟨p, false, []⟩ : Thread L).Has l k := by
    intro p l k hk
    cases k with
    | announced => cases hk.1
    | shared => cases hk
    | exclusive => cases hk
  induction h with
  | refl => exact ⟨fun t => List.Pairwise.nil, fun t u _ l k k' hk => absurd hk hnone⟩
  | tail _ hstep ih =>
    cases hstep with
    | start t hidle hplan => exact ih.update (hplans _ hplan) fun l k hk => absurd hk hnone
    | tryLock t hidle hadmits =>
      refine ih.update (List.pairwise_singleton _ _) fun l k hk => Or.inr fun u _ k' hk' => ?_
      rcases has_taken (x := .idle) hk with hold | ⟨rfl, hrank⟩
      · exact absurd hold hnone
      · exact hrank ▸ hadmits u k' hk'
    | move hmoves =>
      obtain ⟨t, x, hturn, rfl⟩ := hmoves
      exact ih.turn hturn

/-- Of the threads that wait, one that waits for the highest lock is not kept waiting: who holds
that lock waits for none. -/
theorem Inv.progress [WellFoundedGT L] (hi : Inv s) (hstuck : ∀ s', ¬Moves s s') (t : ι) :
    (s t).todo = [] ∧ (s t).held = [] := by
  have hturn : ∀ u x, ¬Turn s u x := fun u x h => hstuck _ ⟨u, x, h, rfl⟩
  have hwaits : ∀ u, (s u).todo = [] → (s u).held = [] := by
    intro u htodo
    cases hheld : (s u).held with
    | nil => rfl
    | cons x rest => exact absurd (Turn.release htodo hheld) (hturn u _)
  have hnone : ∀ u, (s u).todo = [] := by
    by_contra hsome
    obtain ⟨u, hu⟩ := not_forall.mp hsome
    obtain ⟨⟨l₀, m₀⟩, rest₀, htodo₀⟩ := List.exists_cons_of_ne_nil hu
    obtain ⟨l, ⟨v, m, rest, htodo⟩, hmax⟩ := WellFounded.has_min
      (wellFounded_gt (α := L)) {l | ∃ v m rest, (s v).todo = (l, m) :: rest}
      ⟨l₀, u, m₀, rest₀, htodo₀⟩
    have hheld : ∀ w m', (l, m') ∉ (s w).held := by
      intro w m' hmem
      cases hw : (s w).todo with
      | nil =>
        rw [hwaits w hw] at hmem
        cases hmem
      | cons y rest' =>
        have hall := hi.ascending w
        unfold Ascending at hall
        rw [hw, List.map_append] at hall
        refine hmax y.1 ⟨w, y.2, rest', hw⟩ ((List.pairwise_append.mp hall).2.2 l ?_ y.1 ?_)
        · exact List.mem_map.mpr ⟨(l, m'), List.mem_reverse.mpr hmem, rfl⟩
        · exact List.mem_map.mpr ⟨y, List.mem_cons_self .., rfl⟩
    have hadmits : ∀ k, Admits s l k := by
      intro k w k' hk'
      cases k' with
      | shared => exact absurd hk' (hheld w _)
      | exclusive => exact absurd hk' (hheld w _)
      | announced =>
        obtain ⟨hflag, rest', hw⟩ := hk'
        exact absurd (Turn.write hw hflag fun z => hheld z _) (hturn w _)
    cases m with
    | read => exact hturn v _ (.read htodo (hadmits _))
    | write =>
      cases hflag : (s v).announced with
      | true => exact hturn v _ (.write htodo hflag fun z => hheld z _)
      | false => exact hturn v _ (.announce htodo hflag (hadmits _))
  exact ⟨hnone t, hwaits t (hnone t)⟩

end OrderedLocks
