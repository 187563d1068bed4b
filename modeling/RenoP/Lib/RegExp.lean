import Mathlib.Data.List.Basic

/-!
# Regular expressions (package regexp of the Go standard library)

A pattern gives its matches at the start of a text, those that the matcher prefers first: what is
taken and what is left.
-/

namespace RegExp

variable {α : Type}

abbrev Pattern (α : Type) := List α → List (List α × List α)

def one (p : α → Bool) : Pattern α
  | [] => []
  | c :: s => if p c then [([c], s)] else []

def plus (p : α → Bool) : Pattern α
  | [] => []
  | c :: s => if p c then (plus p s).map (fun m => (c :: m.1, m.2)) ++ [([c], s)] else []

def seq (a b : Pattern α) : Pattern α := fun s =>
  (a s).flatMap fun m => (b m.2).map fun k => (m.1 ++ k.1, k.2)

def times (p : α → Bool) : ℕ → Pattern α
  | 0 => fun s => [([], s)]
  | n + 1 => seq (one p) (times p n)

/-- `?`, the pattern first -/
def opt (a : Pattern α) : Pattern α := fun s => a s ++ [([], s)]

/-- `|`, the first pattern first -/
def alt (a b : Pattern α) : Pattern α := fun s => a s ++ b s

/-- `*` up to so many times -/
def starN (a : Pattern α) : ℕ → Pattern α
  | 0 => fun s => [([], s)]
  | n + 1 => opt (seq a (starN a n))

/-- `*` of a pattern that takes no empty text -/
def star (a : Pattern α) : Pattern α := fun s => starN a s.length s

/-- `^(?:a)$` -/
def fullMatch (a : Pattern α) (s : List α) : Bool := (a s).any fun m => m.2.isEmpty

def Takes (a : Pattern α) (L : List α → Prop) : Prop :=
  ∀ s m, m ∈ a s ↔ s = m.1 ++ m.2 ∧ L m.1

theorem takes_one (p : α → Bool) : Takes (one p) fun x => ∃ c, x = [c] ∧ p c = true := by
  intro s m
  cases s with
  | nil =>
    refine ⟨fun h => absurd h List.not_mem_nil, ?_⟩
    rintro ⟨hs, c, hc, -⟩
    rw [hc] at hs
    cases hs
  | cons d s =>
    have hone : one p (d :: s) = if p d then [([d], s)] else [] := rfl
    rw [hone]
    constructor
    · intro h
      split_ifs at h with hd
      · rw [List.mem_singleton.mp h]
        exact ⟨rfl, d, rfl, hd⟩
      · cases h
    · rintro ⟨hs, c, hc, hp⟩
      rw [hc] at hs
      obtain ⟨rfl, hrest⟩ := List.cons.inj hs
      rw [if_pos hp, List.mem_singleton, ← Prod.eta m, hc, hrest]
      rfl

theorem takes_plus (p : α → Bool) : Takes (plus p) fun x => x ≠ [] ∧ ∀ c ∈ x, p c = true := by
  intro s
  induction s with
  | nil =>
    intro m
    refine ⟨fun h => absurd h List.not_mem_nil, ?_⟩
    rintro ⟨hs, hne, -⟩
    exact absurd (List.append_eq_nil_iff.mp hs.symm).1 hne
  | cons d s ih =>
    intro m
    unfold plus
    constructor
    · intro h
      split_ifs at h with hd
      · rcases List.mem_append.mp h with h | h
        · obtain ⟨k, hk, rfl⟩ := List.mem_map.mp h
          obtain ⟨hs, -, hall⟩ := (ih k).mp hk
          refine ⟨by rw [hs]; rfl, List.cons_ne_nil _ _, ?_⟩
          intro c hc
          rcases List.mem_cons.mp hc with rfl | hc
          · exact hd
          · exact hall c hc
        · rw [List.mem_singleton.mp h]
          exact ⟨rfl, List.cons_ne_nil _ _, fun c hc => List.mem_singleton.mp hc ▸ hd⟩
      · cases h
    · rintro ⟨hs, hne, hall⟩
      obtain ⟨c, x, hx⟩ := List.exists_cons_of_ne_nil hne
      rw [hx] at hs hall
      obtain ⟨rfl, hrest⟩ := List.cons.inj hs
      rw [if_pos (hall d (List.mem_cons_self ..)), List.mem_append]
      cases x with
      | nil =>
        right
        rw [List.mem_singleton, ← Prod.eta m, hx, hrest]
        rfl
      | cons e x =>
        left
        refine List.mem_map.mpr ⟨(e :: x, m.2), (ih _).mpr ⟨hrest, List.cons_ne_nil _ _, ?_⟩, ?_⟩
        · exact fun c hc => hall c (List.mem_cons_of_mem d hc)
        · rw [← hx]

theorem Takes.seq {a b : Pattern α} {L M : List α → Prop} (ha : Takes a L) (hb : Takes b M) :
    Takes (seq a b) fun x => ∃ u v, x = u ++ v ∧ L u ∧ M v := by
  intro s m
  unfold RegExp.seq
  rw [List.mem_flatMap]
  constructor
  · rintro ⟨k, hk, h⟩
    obtain ⟨l, hl, rfl⟩ := List.mem_map.mp h
    obtain ⟨hs, hL⟩ := (ha s k).mp hk
    obtain ⟨hk2, hM⟩ := (hb k.2 l).mp hl
    exact ⟨by rw [hs, hk2, List.append_assoc], k.1, l.1, rfl, hL, hM⟩
  · rintro ⟨hs, u, v, huv, hL, hM⟩
    refine ⟨(u, v ++ m.2), (ha s _).mpr ⟨by rw [hs, huv, List.append_assoc], hL⟩, ?_⟩
    refine List.mem_map.mpr ⟨(v, m.2), (hb _ _).mpr ⟨rfl, hM⟩, ?_⟩
    rw [← huv]

theorem takes_times (p : α → Bool) (n : ℕ) :
    Takes (times p n) fun x => x.length = n ∧ ∀ c ∈ x, p c = true := by
  induction n with
  | zero =>
    intro s m
    unfold times
    rw [List.mem_singleton]
    constructor
    · rintro rfl
      exact ⟨rfl, rfl, fun c hc => absurd hc List.not_mem_nil⟩
    · rintro ⟨hs, hlength, -⟩
      have hnil := List.length_eq_zero_iff.mp hlength
      rw [← Prod.eta m, hs, hnil]
      rfl
  | succ n ih =>
    intro s m
    refine ((takes_one p).seq ih s m).trans (and_congr_right fun _ => ?_)
    constructor
    · rintro ⟨u, v, huv, ⟨c, rfl, hc⟩, hlength, hall⟩
      rw [huv]
      refine ⟨by simp [hlength], ?_⟩
      intro d hd
      rcases List.mem_cons.mp hd with rfl | hd
      · exact hc
      · exact hall d hd
    · rintro ⟨hlength, hall⟩
      cases hx : m.1 with
      | nil =>
        rw [hx] at hlength
        cases hlength
      | cons c x =>
        rw [hx] at hlength hall
        exact ⟨[c], x, rfl, ⟨c, rfl, hall c (List.mem_cons_self ..)⟩,
          Nat.succ.inj hlength, fun d hd => hall d (List.mem_cons_of_mem c hd)⟩

theorem Takes.opt {a : Pattern α} {L : List α → Prop} (ha : Takes a L) :
    Takes (opt a) fun x => L x ∨ x = [] := by
  intro s m
  unfold RegExp.opt
  rw [List.mem_append, List.mem_singleton, ha s m]
  constructor
  · rintro (⟨hs, hL⟩ | rfl)
    · exact ⟨hs, .inl hL⟩
    · exact ⟨rfl, .inr rfl⟩
  · rintro ⟨hs, hL | hnil⟩
    · exact .inl ⟨hs, hL⟩
    · right
      rw [← Prod.eta m, hs, hnil]
      rfl

theorem Takes.alt {a b : Pattern α} {L M : List α → Prop} (ha : Takes a L) (hb : Takes b M) :
    Takes (alt a b) fun x => L x ∨ M x := by
  intro s m
  unfold RegExp.alt
  rw [List.mem_append, ha s m, hb s m, and_or_left]

theorem Takes.starN {a : Pattern α} {L : List α → Prop} (ha : Takes a L) (n : ℕ) :
    Takes (starN a n) fun x => ∃ parts : List (List α),
      parts.length ≤ n ∧ x = parts.flatten ∧ ∀ p ∈ parts, L p := by
  induction n with
  | zero =>
    intro s m
    unfold RegExp.starN
    rw [List.mem_singleton]
    constructor
    · rintro rfl
      exact ⟨rfl, [], Nat.le_refl 0, rfl, fun p hp => absurd hp List.not_mem_nil⟩
    · rintro ⟨hs, parts, hlength, hm, -⟩
      rw [List.length_eq_zero_iff.mp (Nat.le_zero.mp hlength), List.flatten_nil] at hm
      rw [← Prod.eta m, hs, hm]
      rfl
  | succ n ih =>
    intro s m
    refine ((ha.seq ih).opt s m).trans (and_congr_right fun _ => ?_)
    constructor
    · rintro (⟨u, v, huv, hu, parts, hlength, hv, hall⟩ | hnil)
      · refine ⟨u :: parts, Nat.succ_le_succ hlength, by rw [huv, hv, List.flatten_cons], ?_⟩
        intro p hp
        rcases List.mem_cons.mp hp with rfl | hp
        · exact hu
        · exact hall p hp
      · exact ⟨[], Nat.zero_le _, hnil, fun p hp => absurd hp List.not_mem_nil⟩
    · rintro ⟨parts, hlength, hm, hall⟩
      cases parts with
      | nil => exact .inr hm
      | cons u parts =>
        refine .inl ⟨u, parts.flatten, by rw [hm, List.flatten_cons],
          hall u (List.mem_cons_self ..), parts, Nat.le_of_succ_le_succ hlength, rfl, ?_⟩
        exact fun p hp => hall p (List.mem_cons_of_mem u hp)

theorem length_le_flatten {parts : List (List α)} (hne : ∀ p ∈ parts, p ≠ []) :
    parts.length ≤ parts.flatten.length := by
  induction parts with
  | nil => exact Nat.le_refl 0
  | cons p parts ih =>
    have hp := List.length_pos_iff.mpr (hne p (List.mem_cons_self ..))
    have hparts := ih fun q hq => hne q (List.mem_cons_of_mem p hq)
    simp only [List.length_cons, List.flatten_cons, List.length_append]
    omega

theorem Takes.star {a : Pattern α} {L : List α → Prop} (ha : Takes a L) (hne : ¬L []) :
    Takes (star a) fun x => ∃ parts : List (List α), x = parts.flatten ∧ ∀ p ∈ parts, L p := by
  intro s m
  refine (ha.starN s.length s m).trans (and_congr_right fun hs => ?_)
  constructor
  · rintro ⟨parts, -, hm, hall⟩
    exact ⟨parts, hm, hall⟩
  · rintro ⟨parts, hm, hall⟩
    refine ⟨parts, ?_, hm, hall⟩
    have hparts := length_le_flatten fun p hp he => hne (he ▸ hall p hp)
    rw [hs, List.length_append, hm]
    omega

theorem Takes.fullMatch {a : Pattern α} {L : List α → Prop} (ha : Takes a L) (s : List α) :
    fullMatch a s = true ↔ L s := by
  unfold RegExp.fullMatch
  rw [List.any_eq_true]
  constructor
  · rintro ⟨m, hm, hrest⟩
    obtain ⟨hs, hL⟩ := (ha s m).mp hm
    rw [List.isEmpty_iff.mp hrest, List.append_nil] at hs
    exact hs ▸ hL
  · intro hL
    exact ⟨(s, []), (ha s _).mpr ⟨(List.append_nil s).symm, hL⟩, rfl⟩

end RegExp
