import Mathlib.Data.List.Infix

/-!
# The LIKE of SQL

A pattern matches a text letter by letter, where `%` stands for any text, `_` for any letter, and
the escape letter for the letter after it. Two letters are the same when `fold` takes them to one.
-/

namespace Like

variable (fold : Char → Char) (escape : Char)

def like : List Char → List Char → Bool
  | [], text => text.isEmpty
  | c :: pattern, text =>
    if c = escape then
      match pattern, text with
      | d :: pattern, e :: text => decide (fold d = fold e) && like pattern text
      | _, _ => false
    else if c = '%' then text.tails.any (like pattern)
    else
      match text with
      | e :: text => (decide (c = '_') || decide (fold c = fold e)) && like pattern text
      | [] => false

def escaped (s : List Char) : List Char :=
  s.flatMap fun c => if c = escape ∨ c = '%' ∨ c = '_' then [escape, c] else [c]

variable {fold escape}

theorem escaped_cons (c : Char) (s : List Char) : escaped escape (c :: s) =
    (if c = escape ∨ c = '%' ∨ c = '_' then [escape, c] else [c]) ++ escaped escape s :=
  List.flatMap_cons

theorem like_letter (c : Char) (pattern text : List Char) :
    like fold escape ((if c = escape ∨ c = '%' ∨ c = '_' then [escape, c] else [c]) ++ pattern)
      text = true ↔ ∃ e rest, text = e :: rest ∧ fold c = fold e ∧
        like fold escape pattern rest = true := by
  split_ifs with hspecial
  · rw [List.cons_append, List.singleton_append, like.eq_def]
    dsimp only
    rw [if_pos rfl]
    cases text with
    | nil => simp
    | cons e rest => simp
  · obtain ⟨hescape, hmany, hone⟩ : c ≠ escape ∧ c ≠ '%' ∧ c ≠ '_' := by
      simpa only [not_or] using hspecial
    rw [List.singleton_append, like.eq_def]
    dsimp only
    rw [if_neg hescape, if_neg hmany]
    cases text with
    | nil => simp
    | cons e rest => simp [hone]

theorem like_escaped (s pattern text : List Char) :
    like fold escape (escaped escape s ++ pattern) text = true ↔
      ∃ t rest, text = t ++ rest ∧ t.map fold = s.map fold ∧
        like fold escape pattern rest = true := by
  induction s generalizing text with
  | nil =>
    constructor
    · exact fun h => ⟨[], text, rfl, rfl, h⟩
    · rintro ⟨t, rest, rfl, ht, h⟩
      rw [List.map_nil, List.map_eq_nil_iff] at ht
      rw [ht]
      exact h
  | cons c s ih =>
    rw [escaped_cons, List.append_assoc, like_letter]
    constructor
    · rintro ⟨e, rest, rfl, hc, h⟩
      obtain ⟨t, rest, rfl, ht, h⟩ := (ih rest).mp h
      exact ⟨e :: t, rest, rfl, by rw [List.map_cons, List.map_cons, ht, hc], h⟩
    · rintro ⟨t, rest, rfl, ht, h⟩
      cases t with
      | nil => cases ht
      | cons e t =>
        rw [List.map_cons, List.map_cons, List.cons.injEq] at ht
        exact ⟨e, t ++ rest, rfl, ht.1.symm, (ih _).mpr ⟨t, rest, rfl, ht.2, h⟩⟩

theorem like_any (hescape : escape ≠ '%') (text : List Char) :
    like fold escape ['%'] text = true := by
  rw [like.eq_def]
  dsimp only
  rw [if_neg (Ne.symm hescape), if_pos rfl, List.any_eq_true]
  exact ⟨[], (List.mem_tails _ _).mpr (List.nil_suffix), rfl⟩

theorem like_begin (hescape : escape ≠ '%') (s text : List Char) :
    like fold escape (escaped escape s ++ ['%']) text = true ↔ s.map fold <+: text.map fold := by
  rw [like_escaped]
  constructor
  · rintro ⟨t, rest, rfl, ht, -⟩
    rw [List.map_append, ht]
    exact List.prefix_append _ _
  · rintro ⟨rest, h⟩
    obtain ⟨t, rest, rfl, ht, -⟩ := List.map_eq_append_iff.mp h.symm
    exact ⟨t, rest, rfl, ht, like_any hescape rest⟩

theorem escaped_append (s t : List Char) :
    escaped escape (s ++ t) = escaped escape s ++ escaped escape t := List.flatMap_append

theorem like_begin_letter (hescape : escape ≠ '%') {c : Char}
    (hc : ¬(c = escape ∨ c = '%' ∨ c = '_')) (s text : List Char) :
    like fold escape (escaped escape s ++ [c, '%']) text = true ↔
      (s ++ [c]).map fold <+: text.map fold := by
  have hpattern : escaped escape s ++ [c, '%'] = escaped escape (s ++ [c]) ++ ['%'] := by
    rw [escaped_append, escaped_cons, if_neg hc, List.append_assoc]
    rfl
  rw [hpattern, like_begin hescape]

end Like
