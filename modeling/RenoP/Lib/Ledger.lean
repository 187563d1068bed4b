import RenoP.Lib.GoMap
import Mathlib.Algebra.BigOperators.Group.Finset.Piecewise
import Mathlib.Algebra.Order.BigOperators.Group.Finset

/-!
# Ledgers

A ledger is a list of postings to accounts. What an account has is its balance, and the balances
add up to the total, so ledgers are compared account by account. The entries of a map of amounts
are a ledger of it.
-/

namespace Ledger

variable {K : Type} [DecidableEq K]

def balance (l : List (K × ℤ)) (k : K) : ℤ := (l.map fun e => if e.1 = k then e.2 else 0).sum

omit [DecidableEq K] in
def total (l : List (K × ℤ)) : ℤ := (l.map Prod.snd).sum

@[simp] theorem balance_nil (k : K) : balance [] k = 0 := rfl

omit [DecidableEq K] in
@[simp] theorem total_nil : total ([] : List (K × ℤ)) = 0 := rfl

theorem balance_cons (e : K × ℤ) (l : List (K × ℤ)) (k : K) :
    balance (e :: l) k = (if e.1 = k then e.2 else 0) + balance l k := by
  unfold balance
  rw [List.map_cons, List.sum_cons]

omit [DecidableEq K] in
theorem total_cons (e : K × ℤ) (l : List (K × ℤ)) : total (e :: l) = e.2 + total l := by
  unfold total
  rw [List.map_cons, List.sum_cons]

theorem balance_append (l l' : List (K × ℤ)) (k : K) :
    balance (l ++ l') k = balance l k + balance l' k := by
  unfold balance
  rw [List.map_append, List.sum_append]

omit [DecidableEq K] in
theorem total_append (l l' : List (K × ℤ)) : total (l ++ l') = total l + total l' := by
  unfold total
  rw [List.map_append, List.sum_append]

theorem balance_flatMap {P : Type} (g : P → List (K × ℤ)) (ps : List P) (k : K) :
    balance (ps.flatMap g) k = (ps.map fun p => balance (g p) k).sum := by
  induction ps with
  | nil => rfl
  | cons p ps ih => rw [List.flatMap_cons, balance_append, ih, List.map_cons, List.sum_cons]

omit [DecidableEq K] in
theorem total_flatMap {P : Type} (g : P → List (K × ℤ)) (ps : List P) :
    total (ps.flatMap g) = (ps.map fun p => total (g p)).sum := by
  induction ps with
  | nil => rfl
  | cons p ps ih => rw [List.flatMap_cons, total_append, ih, List.map_cons, List.sum_cons]

theorem balance_of_not_mem {l : List (K × ℤ)} {k : K} (h : k ∉ l.map Prod.fst) :
    balance l k = 0 := by
  induction l with
  | nil => rfl
  | cons e l ih =>
    rw [List.map_cons, List.mem_cons, not_or] at h
    rw [balance_cons, if_neg (Ne.symm h.1), ih h.2, add_zero]

theorem balance_of_mem {l : List (K × ℤ)} (hnodup : (l.map Prod.fst).Nodup) {e : K × ℤ}
    (h : e ∈ l) : balance l e.1 = e.2 := by
  induction l with
  | nil => cases h
  | cons e' l ih =>
    rw [List.map_cons, List.nodup_cons] at hnodup
    rw [balance_cons]
    rcases List.mem_cons.mp h with heq | hmem
    · rw [heq, if_pos rfl, balance_of_not_mem hnodup.1, add_zero]
    · have hne : e'.1 ≠ e.1 := by
        intro heq
        exact hnodup.1 (heq ▸ List.mem_map_of_mem hmem)
      rw [if_neg hne, zero_add, ih hnodup.2 hmem]

theorem balance_nonneg {l : List (K × ℤ)} (h : ∀ e ∈ l, 0 ≤ e.2) (k : K) : 0 ≤ balance l k := by
  apply List.sum_nonneg
  intro x hx
  obtain ⟨e, he, rfl⟩ := List.mem_map.mp hx
  split_ifs
  · exact h e he
  · exact Int.le_refl 0

theorem sum_balance (l : List (K × ℤ)) (s : Finset K) (h : ∀ e ∈ l, e.1 ∈ s) :
    ∑ k ∈ s, balance l k = total l := by
  induction l with
  | nil => exact Finset.sum_eq_zero fun k _ => rfl
  | cons e l ih =>
    have hrest := ih fun e' he' => h e' (List.mem_cons_of_mem e he')
    simp only [balance_cons, Finset.sum_add_distrib, hrest, total_cons]
    rw [Finset.sum_ite_eq, if_pos (h e (List.mem_cons_self ..))]

theorem total_le_total {l l' : List (K × ℤ)} (h : ∀ k, balance l k ≤ balance l' k) :
    total l ≤ total l' := by
  have hall : ∀ e ∈ l ++ l', e.1 ∈ ((l ++ l').map Prod.fst).toFinset := by
    intro e he
    exact List.mem_toFinset.mpr (List.mem_map_of_mem he)
  rw [← sum_balance l _ fun e he => hall e (List.mem_append_left l' he),
    ← sum_balance l' _ fun e he => hall e (List.mem_append_right l he)]
  exact Finset.sum_le_sum fun k _ => h k

theorem total_eq_total {l l' : List (K × ℤ)} (h : ∀ k, balance l k = balance l' k) :
    total l = total l' :=
  le_antisymm (total_le_total fun k => le_of_eq (h k)) (total_le_total fun k => ge_of_eq (h k))

theorem total_nonneg {l : List (K × ℤ)} (h : ∀ k, 0 ≤ balance l k) : 0 ≤ total l := by
  have hle : total [] ≤ total l := total_le_total h
  rw [total_nil] at hle
  exact hle

theorem balance_le_total {l : List (K × ℤ)} (h : ∀ k, 0 ≤ balance l k) (k : K) :
    balance l k ≤ total l := by
  have hle : total [(k, balance l k)] ≤ total l := by
    apply total_le_total
    intro k'
    rw [balance_cons, balance_nil, add_zero]
    split_ifs with heq
    · exact le_of_eq (congrArg (balance l) heq)
    · exact h k'
  simpa [total_cons] using hle

def ofMap (m : GoMap K ℕ) : List (K × ℤ) := m.entries.map fun e => (e.1, (e.2 : ℤ))

/-- `m[k]`, where an absent key reads zero. -/
def amount (m : GoMap K ℕ) (k : K) : ℤ := ((m.load k).getD 0 : ℕ)

theorem amount_nonneg (m : GoMap K ℕ) (k : K) : 0 ≤ amount m k := Int.natCast_nonneg _

theorem balance_listing {V : Type} {m : GoMap K V} {l : List (K × V)}
    (hnodup : (l.map Prod.fst).Nodup) (hmem : ∀ k v, (k, v) ∈ l ↔ m.load k = some v) (f : V → ℤ)
    (k : K) : balance (l.map fun e => (e.1, f e.2)) k = GoMap.weight (fun _ => f) m k := by
  have hkeys : (l.map fun e => (e.1, f e.2)).map Prod.fst = l.map Prod.fst := by
    rw [List.map_map]
    rfl
  cases hload : m.load k with
  | none =>
    rw [GoMap.weight_of_absent hload]
    apply balance_of_not_mem
    rw [hkeys, List.mem_map]
    intro ⟨e, he, hk⟩
    have hsome := (hmem e.1 e.2).mp he
    rw [hk, hload] at hsome
    cases hsome
  | some v =>
    rw [GoMap.weight_of_load hload]
    have hposting : (k, f v) ∈ l.map fun e => (e.1, f e.2) :=
      List.mem_map_of_mem ((hmem k v).mpr hload)
    exact balance_of_mem (hkeys ▸ hnodup) hposting

theorem balance_pairs {V : Type} (o : GoMap.RangeOrder K V) (m : GoMap K V) (f : V → ℤ) (k : K) :
    balance ((o.pairs m).map fun e => (e.1, f e.2)) k = GoMap.weight (fun _ => f) m k :=
  balance_listing (o.pairs_nodup m) (o.mem_pairs m) f k

theorem balance_entries {V : Type} (m : GoMap K V) (f : V → ℤ) (k : K) :
    balance (m.entries.map fun e => (e.1, f e.2)) k = GoMap.weight (fun _ => f) m k := by
  have hlisted : m.entries.map (fun e => (e.1, f e.2)) =
      (m.entries.map fun e => (e.1, e.2)).map fun e => (e.1, f e.2) := by
    rw [List.map_map]
    rfl
  rw [hlisted]
  apply balance_listing
  · rw [List.map_map]
    exact m.nodupKeys
  · intro k v
    rw [← GoMap.mem_entries_iff, List.mem_map]
    constructor
    · rintro ⟨e, he, heq⟩
      cases heq
      exact he
    · intro he
      exact ⟨⟨k, v⟩, he, rfl⟩

theorem sum_eq_total {V : Type} {m : GoMap K V} {f : V → ℤ} {l : List (K × ℤ)}
    (h : ∀ k, GoMap.weight (fun _ => f) m k = balance l k) :
    GoMap.sum (fun _ => f) m = total l := by
  have htotal : GoMap.sum (fun _ => f) m = total (m.entries.map fun e => (e.1, f e.2)) := by
    unfold GoMap.sum total
    rw [List.map_map]
    rfl
  rw [htotal]
  apply total_eq_total
  intro k
  rw [balance_entries, h]

theorem balance_ofMap (m : GoMap K ℕ) (k : K) : balance (ofMap m) k = amount m k := by
  unfold ofMap amount
  rw [balance_entries m (fun v => (v : ℤ)) k, GoMap.weight]
  cases m.load k <;> rfl

theorem amount_store (m : GoMap K ℕ) (k k' : K) (v : ℕ) :
    amount (m.store k v) k' = if k' = k then (v : ℤ) else amount m k' := by
  unfold amount
  rw [GoMap.load_store]
  split_ifs <;> rfl

theorem amount_delete (m : GoMap K ℕ) (k k' : K) :
    amount (m.delete k) k' = if k' = k then 0 else amount m k' := by
  unfold amount
  rw [GoMap.load_delete]
  split_ifs <;> rfl

variable {T V : Type} [DecidableEq T]

def ofParties (f : V → List (K × ℤ)) (m : GoMap T V) : List (K × ℤ) :=
  m.entries.flatMap fun e => f e.2

omit [DecidableEq T] in
theorem balance_ofParties (f : V → List (K × ℤ)) (m : GoMap T V) (k : K) :
    balance (ofParties f m) k = GoMap.sum (fun _ v => balance (f v) k) m :=
  balance_flatMap (fun e : Sigma fun _ : T => V => f e.2) m.entries k

omit [DecidableEq K] [DecidableEq T] in
theorem total_ofParties (f : V → List (K × ℤ)) (m : GoMap T V) :
    total (ofParties f m) = GoMap.sum (fun _ v => total (f v)) m :=
  total_flatMap (fun e : Sigma fun _ : T => V => f e.2) m.entries

end Ledger

/-!
## Items in places

Items are posted to accounts, and each item lies in one place. Items move from place to place, and
what lies in one place is a ledger.
-/

namespace Placement

open Ledger

variable {K V P : Type} [DecidableEq K] [DecidableEq P] {es : List ((K × V) × P)}

def posted (f : V → ℤ) (items : List (K × V)) : List (K × ℤ) := items.map fun e => (e.1, f e.2)

omit [DecidableEq K] in
theorem posted_cons (f : V → ℤ) (e : K × V) (items : List (K × V)) :
    posted f (e :: items) = (e.1, f e.2) :: posted f items := rfl

omit [DecidableEq K] in
theorem posted_append (f : V → ℤ) (items items' : List (K × V)) :
    posted f (items ++ items') = posted f items ++ posted f items' :=
  List.map_append

def lying (f : V → ℤ) (p : P) (es : List ((K × V) × P)) : List (K × ℤ) :=
  es.map fun e => (e.1.1, if e.2 = p then f e.1.2 else 0)

def move (src dst : P) (q : K → Bool) (es : List ((K × V) × P)) : List ((K × V) × P) :=
  es.map fun e => if e.2 = src ∧ q e.1.1 = true then (e.1, dst) else e

omit [DecidableEq K] in
@[simp] theorem items_move (src dst : P) (q : K → Bool) :
    (move src dst q es).map Prod.fst = es.map Prod.fst := by
  unfold move
  rw [List.map_map]
  apply List.map_congr_left
  intro e _
  dsimp only [Function.comp]
  split_ifs <;> rfl

theorem balance_move {src dst : P} (hne : src ≠ dst) (f : V → ℤ) (q : K → Bool) (p : P) (k : K) :
    balance (lying f p (move src dst q es)) k =
      balance (lying f p es) k -
        (if p = src ∧ q k = true then balance (lying f src es) k else 0) +
        (if p = dst ∧ q k = true then balance (lying f src es) k else 0) := by
  induction es with
  | nil => simp [lying, move]
  | cons e es ih =>
    simp only [lying, move, List.map_cons, balance_cons] at ih ⊢
    rw [ih]
    by_cases hk : e.1.1 = k
    · subst hk
      grind
    · split_ifs <;> grind

omit [DecidableEq K] in
theorem total_move_other {src dst : P} {p : P} (hsrc : p ≠ src) (hdst : p ≠ dst) (f : V → ℤ)
    (q : K → Bool) : total (lying f p (move src dst q es)) = total (lying f p es) := by
  induction es with
  | nil => rfl
  | cons e es ih =>
    simp only [lying, move, List.map_cons, total_cons] at ih ⊢
    rw [ih]
    grind

theorem total_move {src dst : P} (hne : src ≠ dst) (f : V → ℤ) (k : K) :
    total (lying f dst (move src dst (fun k' => decide (k' = k)) es)) =
      total (lying f dst es) + balance (lying f src es) k := by
  induction es with
  | nil => rfl
  | cons e es ih =>
    simp only [lying, move, List.map_cons, total_cons, balance_cons] at ih ⊢
    rw [ih]
    grind

theorem balance_places {places : List P} (hnodup : places.Nodup) (hall : ∀ p : P, p ∈ places)
    (f : V → ℤ) (k : K) :
    (places.map fun p => balance (lying f p es) k).sum =
      balance (posted f (es.map Prod.fst)) k := by
  induction es with
  | nil => simp [lying, posted]
  | cons e es ih =>
    simp only [lying, posted, List.map_cons, balance_cons, List.sum_map_add] at ih ⊢
    have hone : (places.map fun p => if e.2 = p then f e.1.2 else 0).sum = f e.1.2 := by
      have hkeys : (places.map fun p => (p, f e.1.2)).map Prod.fst = places := by
        rw [List.map_map]
        exact List.map_id places
      have hmem : (e.2, f e.1.2) ∈ places.map fun p => (p, f e.1.2) :=
        List.mem_map_of_mem (hall e.2)
      have hbalance := balance_of_mem (hkeys.symm ▸ hnodup) hmem
      simpa [balance, Function.comp_def, eq_comm] using hbalance
    rw [ih]
    congr 1
    split_ifs
    · exact hone
    · simp

theorem total_places {places : List P} (hnodup : places.Nodup) (hall : ∀ p : P, p ∈ places)
    (f : V → ℤ) :
    (places.map fun p => total (lying f p es)).sum = total (posted f (es.map Prod.fst)) := by
  rw [← total_flatMap]
  apply total_eq_total
  intro k
  rw [balance_flatMap]
  exact balance_places hnodup hall f k

end Placement
