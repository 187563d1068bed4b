import Mathlib.Data.List.Find
import Mathlib.Tactic.Common

/-!
# White space around a text (TrimSpace of the Go package strings)

On the bytes of a text, that need not be valid UTF-8. `strip` takes codes away from the start for as
long as there is one.
-/

namespace TrimSpace

abbrev Bytes := List UInt8

def firstCode (codes : List Bytes) (s : Bytes) : Option Bytes := codes.find? fun code =>
  code.isPrefixOf s

def stripN (codes : List Bytes) : ℕ → Bytes → Bytes
  | 0, s => s
  | n + 1, s =>
    match firstCode codes s with
    | none => s
    | some code => stripN codes n (s.drop code.length)

def strip (codes : List Bytes) (s : Bytes) : Bytes := stripN codes s.length s

/-- The encodings of the runes that `unicode.IsSpace` accepts -/
def spaces : List Bytes :=
  [[0x09], [0x0A], [0x0B], [0x0C], [0x0D], [0x20], [0xC2, 0x85], [0xC2, 0xA0], [0xE1, 0x9A, 0x80],
    [0xE2, 0x80, 0x80], [0xE2, 0x80, 0x81], [0xE2, 0x80, 0x82], [0xE2, 0x80, 0x83],
    [0xE2, 0x80, 0x84], [0xE2, 0x80, 0x85], [0xE2, 0x80, 0x86], [0xE2, 0x80, 0x87],
    [0xE2, 0x80, 0x88], [0xE2, 0x80, 0x89], [0xE2, 0x80, 0x8A], [0xE2, 0x80, 0xA8],
    [0xE2, 0x80, 0xA9], [0xE2, 0x80, 0xAF], [0xE2, 0x81, 0x9F], [0xE3, 0x80, 0x80]]

def trimLeft (s : Bytes) : Bytes := strip spaces s

def trimRight (s : Bytes) : Bytes := (strip (spaces.map List.reverse) s.reverse).reverse

def trimSpace (s : Bytes) : Bytes := trimRight (trimLeft s)

def visible (c : UInt8) : Bool := decide (0x21 ≤ c) && decide (c ≤ 0x7E)

def blank (c : UInt8) : Bool := decide (c = 0x20) || decide (c = 0x09)

theorem firstCode_spec {codes : List Bytes} {s code : Bytes} (h : firstCode codes s = some code) :
    code ∈ codes ∧ code <+: s := by
  unfold firstCode at h
  have hbegin := List.find?_some h
  exact ⟨List.mem_of_find?_eq_some h, List.isPrefixOf_iff_prefix.mp hbegin⟩

theorem strip_none {codes : List Bytes} {s : Bytes} (h : firstCode codes s = none) :
    strip codes s = s := by
  unfold strip
  cases hs : s.length with
  | zero => rfl
  | succ n => rw [stripN, h]

theorem strip_split (codes : List Bytes) (s : Bytes) :
    ∃ u, s = u ++ strip codes s ∧ ∀ c ∈ u, ∃ code ∈ codes, c ∈ code := by
  have hall : ∀ (n : ℕ) (s : Bytes),
      ∃ u, s = u ++ stripN codes n s ∧ ∀ c ∈ u, ∃ code ∈ codes, c ∈ code := by
    intro n
    induction n with
    | zero => exact fun s => ⟨[], rfl, fun c hc => absurd hc List.not_mem_nil⟩
    | succ n ih =>
      intro s
      unfold stripN
      cases hfind : firstCode codes s with
      | none => exact ⟨[], rfl, fun c hc => absurd hc List.not_mem_nil⟩
      | some code =>
        obtain ⟨hcode, t, rfl⟩ := firstCode_spec hfind
        obtain ⟨u, hu, hmem⟩ := ih ((code ++ t).drop code.length)
        refine ⟨code ++ u, ?_, ?_⟩
        · dsimp only
          rw [List.append_assoc, ← hu, List.drop_left]
        · intro c hc
          rcases List.mem_append.mp hc with hc | hc
          · exact ⟨code, hcode, hc⟩
          · exact hmem c hc
  exact hall s.length s

section

variable {codes : List Bytes} (hne : [] ∉ codes)

include hne

theorem firstCode_length {s code : Bytes} (h : firstCode codes s = some code) :
    0 < code.length ∧ code.length ≤ s.length := by
  obtain ⟨hmem, hbegin⟩ := firstCode_spec h
  exact ⟨List.length_pos_iff.mpr fun he => hne (he ▸ hmem), hbegin.length_le⟩

theorem stripN_eq {n m : ℕ} {s : Bytes} (hn : s.length ≤ n) (hm : s.length ≤ m) :
    stripN codes n s = stripN codes m s := by
  have hzero : ∀ n, stripN codes n [] = [] := by
    intro n
    cases n with
    | zero => rfl
    | succ n =>
      unfold stripN
      cases hfind : firstCode codes [] with
      | none => rfl
      | some code =>
        obtain ⟨hpos, hle⟩ := firstCode_length hne hfind
        exact absurd (Nat.lt_of_lt_of_le hpos hle) (Nat.lt_irrefl 0)
  induction n generalizing m s with
  | zero =>
    rw [List.length_eq_zero_iff.mp (Nat.le_zero.mp hn), hzero, hzero]
  | succ n ih =>
    cases m with
    | zero => rw [List.length_eq_zero_iff.mp (Nat.le_zero.mp hm), hzero, hzero]
    | succ m =>
      unfold stripN
      cases hfind : firstCode codes s with
      | none => rfl
      | some code =>
        obtain ⟨hpos, hle⟩ := firstCode_length hne hfind
        dsimp only
        exact ih (by rw [List.length_drop]; omega) (by rw [List.length_drop]; omega)

theorem strip_some {s code : Bytes} (h : firstCode codes s = some code) :
    strip codes s = strip codes (s.drop code.length) := by
  obtain ⟨hpos, hle⟩ := firstCode_length hne h
  unfold strip
  cases hs : s.length with
  | zero => omega
  | succ n =>
    rw [stripN, h]
    exact stripN_eq hne (by rw [List.length_drop]; omega) (Nat.le_refl _)

theorem strip_append {c : UInt8} (hc : ∀ code ∈ codes, c ∉ code) (a b : Bytes) :
    strip codes (a ++ c :: b) = strip codes a ++ c :: b := by
  have hbegin : ∀ a, firstCode codes (a ++ c :: b) = firstCode codes a := by
    intro a
    have hcode : ∀ code ∈ codes, code.isPrefixOf (a ++ c :: b) = code.isPrefixOf a := by
      intro code hcode
      rw [Bool.eq_iff_iff, List.isPrefixOf_iff_prefix, List.isPrefixOf_iff_prefix]
      refine ⟨fun h => ?_, fun h => h.trans (List.prefix_append ..)⟩
      rcases List.prefix_or_prefix_of_prefix h (List.prefix_append a (c :: b)) with h' | ⟨w, rfl⟩
      · exact h'
      · rw [List.prefix_append_right_inj] at h
        cases w with
        | nil => simp
        | cons d w =>
          have hd := (List.cons_prefix_cons.mp h).1
          exact absurd (by simp [hd]) (hc _ hcode)
    exact List.find?_congr hcode
  induction hn : a.length using Nat.strongRecOn generalizing a with
  | ind n ih =>
    cases hfind : firstCode codes a with
    | none => rw [strip_none hfind, strip_none ((hbegin a).trans hfind)]
    | some code =>
      obtain ⟨hpos, hle⟩ := firstCode_length hne hfind
      rw [strip_some hne hfind, strip_some hne ((hbegin a).trans hfind),
        List.drop_append_of_le_length hle]
      exact ih _ (by rw [List.length_drop]; omega) _ rfl

theorem strip_blanks {ws : Bytes} (hmem : ∀ c ∈ ws, [c] ∈ codes)
    (hown : ∀ c ∈ ws, ∀ code ∈ codes, code.head? = some c → code = [c]) (s : Bytes) :
    strip codes (ws ++ s) = strip codes s := by
  induction ws with
  | nil => rfl
  | cons c ws ih =>
    have hfind : firstCode codes (c :: (ws ++ s)) = some [c] := by
      cases hfound : firstCode codes (c :: (ws ++ s)) with
      | none =>
        have hnone := List.find?_eq_none.mp hfound [c] (hmem c (List.mem_cons_self ..))
        exact absurd (by simp) hnone
      | some code =>
        obtain ⟨hcode, hbegin⟩ := firstCode_spec hfound
        cases code with
        | nil => exact absurd hcode hne
        | cons d code =>
          have hd := (List.cons_prefix_cons.mp hbegin).1
          rw [hown c (List.mem_cons_self ..) _ hcode (by rw [hd]; rfl)]
    rw [List.cons_append, strip_some hne hfind]
    exact ih (fun d hd => hmem d (List.mem_cons_of_mem c hd))
      fun d hd => hown d (List.mem_cons_of_mem c hd)

theorem strip_firstCode (s : Bytes) : firstCode codes (strip codes s) = none := by
  induction hn : s.length using Nat.strongRecOn generalizing s with
  | ind n ih =>
    cases hfind : firstCode codes s with
    | none => rw [strip_none hfind, hfind]
    | some code =>
      obtain ⟨hpos, hle⟩ := firstCode_length hne hfind
      rw [strip_some hne hfind]
      exact ih _ (by rw [List.length_drop]; omega) _ rfl

end

theorem firstCode_of_begin {codes : List Bytes} {s t : Bytes} (h : firstCode codes s = none)
    (hbegin : t <+: s) : firstCode codes t = none := by
  refine List.find?_eq_none.mpr fun code hcode hfound => ?_
  have hcodebegin := (List.isPrefixOf_iff_prefix.mp hfound).trans hbegin
  exact List.find?_eq_none.mp h code hcode (List.isPrefixOf_iff_prefix.mpr hcodebegin)

theorem spaces_visible {c : UInt8} (hc : visible c = true) :
    (∀ code ∈ spaces, c ∉ code) ∧ ∀ code ∈ spaces.map List.reverse, c ∉ code := by
  have hall : spaces.flatten.all (fun d => !visible d) = true := by decide +kernel
  have hspaces : ∀ code ∈ spaces, c ∉ code := by
    intro code hcode hmem
    have hblank := List.all_eq_true.mp hall c (List.mem_flatten.mpr ⟨code, hcode, hmem⟩)
    rw [hc] at hblank
    cases hblank
  refine ⟨hspaces, ?_⟩
  intro code hcode hmem
  obtain ⟨code', hcode', rfl⟩ := List.mem_map.mp hcode
  exact hspaces code' hcode' (List.mem_reverse.mp hmem)

theorem spaces_blank {ws : Bytes} (hws : ∀ c ∈ ws, blank c = true) :
    ((∀ c ∈ ws, [c] ∈ spaces) ∧
      ∀ c ∈ ws, ∀ code ∈ spaces, code.head? = some c → code = [c]) ∧
    (∀ c ∈ ws, [c] ∈ spaces.map List.reverse) ∧
      ∀ c ∈ ws, ∀ code ∈ spaces.map List.reverse, code.head? = some c → code = [c] := by
  have hall : ∀ p : UInt8 → Prop, p 0x20 → p 0x09 → ∀ c ∈ ws, p c := by
    intro p hspace htab c hc
    have hcases : c = 0x20 ∨ c = 0x09 := by
      simpa [blank] using hws c hc
    rcases hcases with rfl | rfl
    · exact hspace
    · exact htab
  exact ⟨⟨hall _ (by decide) (by decide), hall _ (by decide) (by decide)⟩,
    hall _ (by decide) (by decide), hall _ (by decide) (by decide)⟩

theorem no_empty_space : [] ∉ spaces ∧ [] ∉ spaces.map List.reverse := by decide

theorem trimLeft_append {c : UInt8} (hc : visible c = true) (a b : Bytes) :
    trimLeft (a ++ c :: b) = trimLeft a ++ c :: b :=
  strip_append no_empty_space.1 (spaces_visible hc).1 a b

theorem trimLeft_blanks {ws : Bytes} (hws : ∀ c ∈ ws, blank c = true) (s : Bytes) :
    trimLeft (ws ++ s) = trimLeft s :=
  strip_blanks no_empty_space.1 (spaces_blank hws).1.1 (spaces_blank hws).1.2 s

theorem trimRight_append {c : UInt8} (hc : visible c = true) (a b : Bytes) :
    trimRight (a ++ c :: b) = a ++ c :: trimRight b := by
  unfold trimRight
  have hreverse : (a ++ c :: b).reverse = b.reverse ++ c :: a.reverse := by simp
  rw [hreverse, strip_append no_empty_space.2 (spaces_visible hc).2]
  simp

theorem trimRight_blanks {ws : Bytes} (hws : ∀ c ∈ ws, blank c = true) : trimRight ws = [] := by
  unfold trimRight
  have hreverse : ∀ c ∈ ws.reverse, blank c = true := fun c hc => hws c (List.mem_reverse.mp hc)
  have hstrip := strip_blanks no_empty_space.2 (spaces_blank hreverse).2.1
    (spaces_blank hreverse).2.2 []
  rw [List.append_nil] at hstrip
  rw [hstrip]
  rfl

theorem trimSpace_visible {s : Bytes} (hs : ∀ c ∈ s, visible c = true) : trimSpace s = s := by
  have hleft : trimLeft s = s := by
    cases s with
    | nil => rfl
    | cons c s => exact trimLeft_append (hs c (List.mem_cons_self ..)) [] s
  have hright : trimRight s = s := by
    rcases List.eq_nil_or_concat s with rfl | ⟨t, c, rfl⟩
    · rfl
    · rw [List.concat_eq_append] at hs ⊢
      exact trimRight_append (hs c (by simp)) t []
  rw [trimSpace, hleft, hright]

theorem trimSpace_split (s : Bytes) : ∃ u v, s = u ++ trimSpace s ++ v ∧
    (∀ c ∈ u, ∃ code ∈ spaces, c ∈ code) ∧ ∀ c ∈ v, ∃ code ∈ spaces, c ∈ code := by
  obtain ⟨u, hu, hleft⟩ := strip_split spaces s
  obtain ⟨v, hv, hright⟩ := strip_split (spaces.map List.reverse) (trimLeft s).reverse
  refine ⟨u, v.reverse, ?_, hleft, ?_⟩
  · have hrest : trimLeft s = trimSpace s ++ v.reverse := by
      rw [← List.reverse_reverse (trimLeft s), hv, List.reverse_append]
      rfl
    rw [List.append_assoc, ← hrest]
    exact hu
  · intro c hc
    obtain ⟨code, hcode, hmem⟩ := hright c (List.mem_reverse.mp hc)
    obtain ⟨code', hcode', rfl⟩ := List.mem_map.mp hcode
    exact ⟨code', hcode', List.mem_reverse.mp hmem⟩

theorem trimSpace_idem (s : Bytes) : trimSpace (trimSpace s) = trimSpace s := by
  have hright : ∀ s, trimRight (trimRight s) = trimRight s := by
    intro s
    unfold trimRight
    rw [List.reverse_reverse, strip_none (strip_firstCode no_empty_space.2 _)]
  have hbegin : trimSpace s <+: trimLeft s := by
    obtain ⟨v, hv, -⟩ := strip_split (spaces.map List.reverse) (trimLeft s).reverse
    refine ⟨v.reverse, ?_⟩
    rw [← List.reverse_reverse (trimLeft s), hv, List.reverse_append]
    rfl
  have hleft : trimLeft (trimSpace s) = trimSpace s :=
    strip_none (firstCode_of_begin (strip_firstCode no_empty_space.1 s) hbegin)
  have hagain : trimSpace (trimSpace s) = trimRight (trimLeft (trimSpace s)) := rfl
  rw [hagain, hleft]
  exact hright (trimLeft s)

theorem trimSpace_blanks {ws : Bytes} (hws : ∀ c ∈ ws, blank c = true) (s : Bytes) :
    trimSpace (ws ++ s) = trimSpace s := by
  unfold trimSpace
  rw [trimLeft_blanks hws]

theorem mem_trimSpace {c : UInt8} {s : Bytes} (h : c ∈ trimSpace s) : c ∈ s := by
  obtain ⟨u, v, hs, -⟩ := trimSpace_split s
  rw [hs]
  exact List.mem_append_left _ (List.mem_append_right _ h)

theorem trimSpace_ne {s : Bytes} (h : trimSpace s ≠ s) :
    (∃ code ∈ spaces, code <+: s) ∨ ∃ code ∈ spaces, code <:+ s := by
  by_contra hnone
  obtain ⟨hbegin, hend⟩ := not_or.mp hnone
  have hleft : trimLeft s = s := by
    refine strip_none (List.find?_eq_none.mpr fun code hcode hfound => hbegin ⟨code, hcode, ?_⟩)
    exact List.isPrefixOf_iff_prefix.mp hfound
  have hright : trimRight s = s := by
    unfold trimRight
    rw [strip_none, List.reverse_reverse]
    refine List.find?_eq_none.mpr fun code hcode hfound => ?_
    obtain ⟨code', hcode', rfl⟩ := List.mem_map.mp hcode
    exact hend ⟨code', hcode', List.reverse_prefix.mp (List.isPrefixOf_iff_prefix.mp hfound)⟩
  exact h (by rw [trimSpace, hleft, hright])

end TrimSpace
