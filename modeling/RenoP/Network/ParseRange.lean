import RenoP.Lib.Digits
import RenoP.Lib.TrimSpace

/-!
# Byte ranges (ParseRange of internal/utils/http.go)

Which ranges of a file are served for a `Range` header, beside what RFC 9110 makes of a range.
-/

namespace RenoP.Network.ByteRange

open ParseUint (isDigit decimal parseUint)
open TrimSpace (trimSpace visible)

abbrev Bytes := List UInt8

def dash : UInt8 := 0x2D

def bytesUnit : Bytes := [0x62, 0x79, 0x74, 0x65, 0x73, 0x3D]

section

variable {m : Type → Type} [Monad m] (sub : UInt64 → UInt64 → m UInt64)

/-- `ParseRange` from the two texts on, with a subtraction of its own. -/
def parseBounds (startStr endStr : Bytes) (fileSize : UInt64) : m (Option (UInt64 × UInt64)) :=
  if startStr = [] then
    match parseUint endStr with
    | none => return none
    | some suffixLen =>
      if suffixLen = 0 ∨ fileSize = 0 then return none
      else do
        let start ← if suffixLen < fileSize then sub fileSize suffixLen else pure 0
        let last ← sub fileSize 1
        return some (start, last)
  else
    match parseUint startStr with
    | none => return none
    | some start =>
      if fileSize ≤ start then return none
      else if endStr = [] then
        if fileSize = 0 then return some (start, 0)
        else do
          let last ← sub fileSize 1
          return some (start, last)
      else
        match parseUint endStr with
        | none => return none
        | some stop =>
          if start ≤ stop then do
            let last ← sub fileSize 1
            if last < stop ∧ 0 < fileSize then return some (start, last)
            else if fileSize = 0 then return some (start, 0)
            else return some (start, stop)
          else return none

def parseRangeBy (rangeStr : Bytes) (fileSize : UInt64) : m (Option (UInt64 × UInt64)) :=
  let rangeStr := trimSpace rangeStr
  let ranges := rangeStr.drop 6
  if bytesUnit.isPrefixOf rangeStr = false ∨ dash ∉ ranges then return none
  else
    parseBounds sub (trimSpace (ranges.takeWhile (· ≠ dash)))
      (trimSpace ((ranges.dropWhile (· ≠ dash)).drop 1)) fileSize

end

def parseRange (rangeStr : Bytes) (fileSize : UInt64) : Option (UInt64 × UInt64) :=
  Id.run (parseRangeBy (fun x y => pure (x - y)) rangeStr fileSize)

def checkedSub (x y : UInt64) : Option UInt64 := if y ≤ x then some (x - y) else none

structure Numeral where
  text : Bytes
  ne : text ≠ []
  digits : ∀ c ∈ text, isDigit c = true

def Numeral.value (n : Numeral) : ℕ := decimal n.text

inductive RangeSpec where
  | fromTo (a b : Numeral)
  | startingAt (a : Numeral)
  | suffix (n : Numeral)

def RangeSpec.text : RangeSpec → Bytes
  | fromTo a b => bytesUnit ++ (a.text ++ dash :: b.text)
  | startingAt a => bytesUnit ++ (a.text ++ [dash])
  | suffix n => bytesUnit ++ dash :: n.text

def RangeSpec.selected (fileSize : ℕ) : RangeSpec → Option (ℕ × ℕ)
  | fromTo a b =>
    if a.value < fileSize ∧ a.value ≤ b.value then some (a.value, min b.value (fileSize - 1))
    else none
  | startingAt a => if a.value < fileSize then some (a.value, fileSize - 1) else none
  | suffix n =>
    if 0 < n.value ∧ 0 < fileSize then some (fileSize - min n.value fileSize, fileSize - 1)
    else none

def RangeSpec.Fits (fileSize : ℕ) : RangeSpec → Prop
  | fromTo a b => a.value < fileSize → b.value < 2 ^ 64
  | startingAt _ => True
  | suffix n => 0 < fileSize → n.value < 2 ^ 64

def natural (r : UInt64 × UInt64) : ℕ × ℕ := (r.1.toNat, r.2.toNat)

section

variable {fileSize : UInt64}

theorem one_le_of_lt {x : UInt64} (h : x < fileSize) : (1 : UInt64) ≤ fileSize := by
  rw [UInt64.le_iff_toNat_le]
  rw [UInt64.lt_iff_toNat_lt] at h
  show 1 ≤ fileSize.toNat
  omega

theorem pos_of_lt {x : UInt64} (h : x < fileSize) : (0 : UInt64) < fileSize := by
  rw [UInt64.lt_iff_toNat_lt] at h ⊢
  show 0 < fileSize.toNat
  omega

theorem pos_of_ne_zero (h : fileSize ≠ 0) : (0 : UInt64) < fileSize := by
  have hne : fileSize.toNat ≠ 0 := fun hzero => h (UInt64.toNat_inj.mp hzero)
  rw [UInt64.lt_iff_toNat_lt]
  show 0 < fileSize.toNat
  omega

theorem checkedSub_of_le {x y : UInt64} (h : y ≤ x) : checkedSub x y = some (x - y) := if_pos h

theorem parseBounds_checked (startStr endStr : Bytes) :
    parseBounds checkedSub startStr endStr fileSize =
      some (Id.run (parseBounds (fun x y => pure (x - y)) startStr endStr fileSize)) := by
  unfold parseBounds
  by_cases hstart : startStr = []
  · rw [if_pos hstart, if_pos hstart]
    cases parseUint endStr with
    | none => rfl
    | some suffixLen =>
      dsimp only
      by_cases hzero : suffixLen = 0 ∨ fileSize = 0
      · rw [if_pos hzero, if_pos hzero]
        rfl
      · rw [if_neg hzero, if_neg hzero]
        have hone := one_le_of_lt (pos_of_ne_zero (not_or.mp hzero).2)
        split_ifs with hlt
        · rw [checkedSub_of_le (UInt64.le_of_lt hlt), checkedSub_of_le hone]
          rfl
        · rw [checkedSub_of_le hone]
          rfl
  · rw [if_neg hstart, if_neg hstart]
    cases parseUint startStr with
    | none => rfl
    | some start =>
      dsimp only
      by_cases hle : fileSize ≤ start
      · rw [if_pos hle, if_pos hle]
        rfl
      · rw [if_neg hle, if_neg hle]
        have hone := one_le_of_lt (UInt64.not_le.mp hle)
        rw [checkedSub_of_le hone]
        by_cases hempty : endStr = []
        · rw [if_pos hempty, if_pos hempty]
          split_ifs
          · rfl
          · rfl
        · rw [if_neg hempty, if_neg hempty]
          cases parseUint endStr with
          | none => rfl
          | some stop =>
            simp only [Option.bind_eq_bind, Option.bind_some, pure_bind]
            split_ifs <;> rfl

theorem parseRange_checked (header : Bytes) :
    parseRangeBy checkedSub header fileSize = some (parseRange header fileSize) := by
  unfold parseRange parseRangeBy
  dsimp only
  by_cases hform : bytesUnit.isPrefixOf (trimSpace header) = false ∨
      dash ∉ (trimSpace header).drop 6
  · rw [if_pos hform, if_pos hform]
    rfl
  · rw [if_neg hform, if_neg hform]
    exact parseBounds_checked _ _

theorem natural_last (h : (0 : UInt64) < fileSize) : (fileSize - 1).toNat = fileSize.toNat - 1 :=
  UInt64.toNat_sub_of_le fileSize 1 (one_le_of_lt h)

def bounds (startStr endStr : Bytes) (fileSize : UInt64) : Option (UInt64 × UInt64) :=
  Id.run (parseBounds (fun x y => pure (x - y)) startStr endStr fileSize)

theorem bounds_suffix (endStr : Bytes) :
    bounds [] endStr fileSize = (parseUint endStr).bind fun n =>
      if n = 0 ∨ fileSize = 0 then none
      else some (if n < fileSize then fileSize - n else 0, fileSize - 1) := by
  unfold bounds parseBounds
  rw [if_pos rfl]
  cases parseUint endStr with
  | none => rfl
  | some n =>
    dsimp only [Option.bind_some]
    split_ifs <;> rfl

theorem bounds_from {startStr : Bytes} (hne : startStr ≠ []) (endStr : Bytes) :
    bounds startStr endStr fileSize = (parseUint startStr).bind fun start =>
      if fileSize ≤ start then none
      else if endStr = [] then some (start, fileSize - 1)
      else (parseUint endStr).bind fun stop =>
        if start ≤ stop then some (start, if fileSize - 1 < stop then fileSize - 1 else stop)
        else none := by
  unfold bounds parseBounds
  rw [if_neg hne]
  cases parseUint startStr with
  | none => rfl
  | some start =>
    dsimp only [Option.bind_some]
    by_cases hle : fileSize ≤ start
    · rw [if_pos hle, if_pos hle]
      rfl
    · have hpos := pos_of_lt (UInt64.not_le.mp hle)
      rw [if_neg hle, if_neg hle, if_neg (UInt64.ne_of_lt hpos).symm]
      by_cases hempty : endStr = []
      · rw [if_pos hempty, if_pos hempty]
        rfl
      · rw [if_neg hempty, if_neg hempty]
        cases parseUint endStr with
        | none => rfl
        | some stop =>
          have hzero := (UInt64.ne_of_lt hpos).symm
          simp only [Option.bind_some, pure_bind, hpos, and_true, if_neg hzero]
          split_ifs <;> rfl

theorem bounds_range {startStr endStr : Bytes} {start stop : UInt64}
    (h : bounds startStr endStr fileSize = some (start, stop)) :
    start ≤ stop ∧ stop < fileSize := by
  simp only [UInt64.le_iff_toNat_le, UInt64.lt_iff_toNat_lt]
  by_cases hstart : startStr = []
  · rw [hstart, bounds_suffix] at h
    obtain ⟨n, -, hn⟩ := Option.bind_eq_some_iff.mp h
    split_ifs at hn with hzero hlt
    all_goals
      have hpos := pos_of_ne_zero (not_or.mp hzero).2
      have hnpos := pos_of_ne_zero (not_or.mp hzero).1
      have hlast := natural_last hpos
      rw [UInt64.lt_iff_toNat_lt] at hpos hnpos
      have h0 : (0 : UInt64).toNat = 0 := rfl
      cases hn
    · have hsub := UInt64.toNat_sub_of_le fileSize n (UInt64.le_of_lt hlt)
      omega
    · omega
  · rw [bounds_from hstart] at h
    obtain ⟨first, -, hfirst⟩ := Option.bind_eq_some_iff.mp h
    split_ifs at hfirst with hle hempty
    all_goals
      have hlt := UInt64.not_le.mp hle
      have hlast := natural_last (pos_of_lt hlt)
      rw [UInt64.lt_iff_toNat_lt] at hlt
    · cases hfirst
      omega
    · obtain ⟨last, -, hl⟩ := Option.bind_eq_some_iff.mp hfirst
      split_ifs at hl with hstop hclamp
      · cases hl
        omega
      · cases hl
        rw [UInt64.lt_iff_toNat_lt] at hclamp
        rw [UInt64.le_iff_toNat_le] at hstop
        omega

theorem natural_parseUint {n : Numeral} {value : UInt64} (h : parseUint n.text = some value) :
    value.toNat = n.value := (ParseUint.parseUint_eq_some.mp h).2.2.symm

theorem parseUint_numeral (n : Numeral) :
    (n.value < 2 ^ 64 → ∃ value, parseUint n.text = some value ∧ value.toNat = n.value) ∧
      (2 ^ 64 ≤ n.value → parseUint n.text = none) :=
  ParseUint.parseUint_of_digits n.ne n.digits

theorem bounds_fromTo (a b : Numeral) :
    (bounds a.text b.text fileSize).map natural = (RangeSpec.fromTo a b).selected fileSize.toNat ↔
      (RangeSpec.fromTo a b).Fits fileSize.toNat := by
  have hsize := fileSize.toNat_lt
  have hselected : (RangeSpec.fromTo a b).selected fileSize.toNat =
    if a.value < fileSize.toNat ∧ a.value ≤ b.value then
      some (a.value, min b.value (fileSize.toNat - 1)) else none := rfl
  have hfits : (RangeSpec.fromTo a b).Fits fileSize.toNat ↔
    (a.value < fileSize.toNat → b.value < 2 ^ 64) := Iff.rfl
  rw [hselected, hfits, bounds_from a.ne]
  by_cases hlt : a.value < fileSize.toNat
  · obtain ⟨start, hstart, hvalue⟩ := (parseUint_numeral a).1 (by omega)
    have hnot : ¬fileSize ≤ start := by
      rw [UInt64.le_iff_toNat_le]
      omega
    rw [hstart, Option.bind_some, if_neg hnot, if_neg b.ne]
    by_cases hb : b.value < 2 ^ 64
    · obtain ⟨stop, hstop, hstopValue⟩ := (parseUint_numeral b).1 hb
      refine iff_of_true ?_ fun _ => hb
      have hlast := natural_last (pos_of_lt (UInt64.not_le.mp hnot))
      rw [hstop, Option.bind_some]
      simp only [UInt64.le_iff_toNat_le, UInt64.lt_iff_toNat_lt, hlast, hvalue, hstopValue]
      by_cases hle : a.value ≤ b.value
      · have hsat : a.value < fileSize.toNat ∧ a.value ≤ b.value := ⟨hlt, hle⟩
        rw [if_pos hle, if_pos hsat, Option.map_some, natural, hvalue]
        dsimp only
        split_ifs with hclamp
        · rw [hlast, min_eq_right (by omega)]
        · rw [hstopValue, min_eq_left (by omega)]
      · rw [if_neg hle, if_neg fun h => hle h.2]
        rfl
    · rw [(parseUint_numeral b).2 (by omega), if_pos ⟨hlt, by omega⟩]
      refine iff_of_false nofun fun h => hb (h hlt)
  · refine iff_of_true ?_ fun h => absurd h hlt
    rw [if_neg fun h => hlt h.1]
    cases hstart : parseUint a.text with
    | none => rfl
    | some start =>
      have hvalue := natural_parseUint hstart
      have hle : fileSize ≤ start := by
        rw [UInt64.le_iff_toNat_le]
        omega
      rw [Option.bind_some, if_pos hle]
      rfl

theorem bounds_startingAt (a : Numeral) :
    (bounds a.text [] fileSize).map natural = (RangeSpec.startingAt a).selected fileSize.toNat := by
  have hsize := fileSize.toNat_lt
  have hselected : (RangeSpec.startingAt a).selected fileSize.toNat =
    if a.value < fileSize.toNat then some (a.value, fileSize.toNat - 1) else none := rfl
  rw [hselected, bounds_from a.ne]
  by_cases hlt : a.value < fileSize.toNat
  · obtain ⟨start, hstart, hvalue⟩ := (parseUint_numeral a).1 (by omega)
    have hnot : ¬fileSize ≤ start := by
      rw [UInt64.le_iff_toNat_le]
      omega
    have hlast := natural_last (pos_of_lt (UInt64.not_le.mp hnot))
    rw [hstart, Option.bind_some, if_neg hnot, if_pos rfl, if_pos hlt, Option.map_some, natural,
      hvalue, hlast]
  · rw [if_neg hlt]
    cases hstart : parseUint a.text with
    | none => rfl
    | some start =>
      have hvalue := natural_parseUint hstart
      have hle : fileSize ≤ start := by
        rw [UInt64.le_iff_toNat_le]
        omega
      rw [Option.bind_some, if_pos hle]
      rfl

theorem bounds_last (n : Numeral) :
    (bounds [] n.text fileSize).map natural = (RangeSpec.suffix n).selected fileSize.toNat ↔
      (RangeSpec.suffix n).Fits fileSize.toNat := by
  have hsize := fileSize.toNat_lt
  have hselected : (RangeSpec.suffix n).selected fileSize.toNat =
    if 0 < n.value ∧ 0 < fileSize.toNat then
      some (fileSize.toNat - min n.value fileSize.toNat, fileSize.toNat - 1) else none := rfl
  have hfits : (RangeSpec.suffix n).Fits fileSize.toNat ↔
    (0 < fileSize.toNat → n.value < 2 ^ 64) := Iff.rfl
  rw [hselected, hfits, bounds_suffix]
  by_cases hzero : fileSize = 0
  · have hnone : ∀ m : UInt64, m = 0 ∨ fileSize = 0 := fun _ => .inr hzero
    have hnat : fileSize.toNat = 0 := by
      rw [hzero]
      rfl
    simp [hnone, hnat]
  · have hpos := pos_of_ne_zero hzero
    have hlast := natural_last hpos
    have hsizePos : 0 < fileSize.toNat := UInt64.lt_iff_toNat_lt.mp hpos
    by_cases hn : n.value < 2 ^ 64
    · refine iff_of_true ?_ fun _ => hn
      obtain ⟨m, hm, hvalue⟩ := (parseUint_numeral n).1 hn
      have hmzero : m = 0 ↔ n.value = 0 := by
        rw [← hvalue, ← UInt64.toNat_inj]
        rfl
      rw [hm, Option.bind_some]
      simp only [hmzero, hzero, or_false]
      by_cases hnpos : n.value = 0
      · rw [if_pos hnpos, if_neg (by omega)]
        rfl
      · have hsat : 0 < n.value ∧ 0 < fileSize.toNat := ⟨by omega, hsizePos⟩
        rw [if_neg hnpos, if_pos hsat, Option.map_some, natural, hlast]
        dsimp only
        split_ifs with hlt
        · have hsub := UInt64.toNat_sub_of_le fileSize m (UInt64.le_of_lt hlt)
          rw [UInt64.lt_iff_toNat_lt] at hlt
          rw [hsub, hvalue, min_eq_left (by omega)]
        · rw [UInt64.lt_iff_toNat_lt] at hlt
          have h0 : (0 : UInt64).toNat = 0 := rfl
          rw [h0, min_eq_right (by omega), Nat.sub_self]
    · rw [(parseUint_numeral n).2 (by omega), if_pos ⟨by omega, hsizePos⟩]
      exact iff_of_false nofun fun h => hn (h hsizePos)

theorem visible_digit {c : UInt8} (h : isDigit c = true) : visible c = true ∧ c ≠ dash := by
  obtain ⟨hlo, hhi⟩ := ParseUint.isDigit_iff.mp h
  constructor
  · simp [visible, UInt8.le_iff_toNat_le]
    omega
  · rintro rfl
    exact absurd hlo (by decide)

theorem parseRange_texts {x y : Bytes} (hx : ∀ c ∈ x, isDigit c = true)
    (hy : ∀ c ∈ y, isDigit c = true) :
    parseRange (bytesUnit ++ (x ++ dash :: y)) fileSize = bounds x y fileSize := by
  have hunit : ∀ c ∈ bytesUnit, visible c = true := List.all_eq_true.mp (by decide +kernel)
  have hdash : visible dash = true := by decide
  have hvisible : ∀ c ∈ bytesUnit ++ (x ++ dash :: y), visible c = true := by
    intro c hc
    simp only [List.mem_append, List.mem_cons] at hc
    rcases hc with hc | hc | rfl | hc
    · exact hunit c hc
    · exact (visible_digit (hx c hc)).1
    · exact hdash
    · exact (visible_digit (hy c hc)).1
  have hdrop : (bytesUnit ++ (x ++ dash :: y)).drop 6 = x ++ dash :: y := rfl
  have hbefore : ∀ c ∈ x, decide (c ≠ dash) = true := fun c hc =>
    decide_eq_true (visible_digit (hx c hc)).2
  have htake : (x ++ dash :: y).takeWhile (· ≠ dash) = x := by
    rw [List.takeWhile_append_of_pos hbefore]
    simp
  have hrest : (x ++ dash :: y).dropWhile (· ≠ dash) = dash :: y := by
    rw [List.dropWhile_append_of_pos hbefore]
    simp
  unfold parseRange parseRangeBy
  rw [TrimSpace.trimSpace_visible hvisible]
  dsimp only
  rw [hdrop, htake, hrest, List.drop_one, List.tail_cons,
    TrimSpace.trimSpace_visible fun c hc => (visible_digit (hx c hc)).1,
    TrimSpace.trimSpace_visible fun c hc => (visible_digit (hy c hc)).1, if_neg]
  · rfl
  · simp [bytesUnit, List.isPrefixOf]

theorem parseRange_text (r : RangeSpec) :
    (parseRange r.text fileSize).map natural = r.selected fileSize.toNat ↔
      r.Fits fileSize.toNat := by
  have hnone : ∀ c ∈ ([] : Bytes), isDigit c = true := fun c hc => by cases hc
  cases r with
  | fromTo a b =>
    rw [RangeSpec.text, parseRange_texts a.digits b.digits]
    exact bounds_fromTo a b
  | startingAt a =>
    rw [RangeSpec.text, parseRange_texts a.digits hnone]
    exact iff_of_true (bounds_startingAt a) trivial
  | suffix n =>
    have htext : (RangeSpec.suffix n).text = bytesUnit ++ ([] ++ dash :: n.text) := rfl
    rw [htext, parseRange_texts hnone n.digits]
    exact bounds_last n

theorem parseRange_range {header : Bytes} {start stop : UInt64}
    (h : parseRange header fileSize = some (start, stop)) : start ≤ stop ∧ stop < fileSize := by
  unfold parseRange parseRangeBy at h
  dsimp only at h
  split_ifs at h
  · cases h
  · exact bounds_range h

end

/-- `ParseRange` keeps to the file and never wraps, and it selects what RFC 9110 does exactly where
the last number of a satisfiable range has 64 bits. -/
theorem parseRange_iff (header : Bytes) (fileSize : UInt64) :
    ((∀ start stop, parseRange header fileSize = some (start, stop) →
        start ≤ stop ∧ stop < fileSize) ∧
      parseRangeBy checkedSub header fileSize = some (parseRange header fileSize) ∧
      ∀ r : RangeSpec, header = r.text →
        (parseRange header fileSize).map natural = r.selected fileSize.toNat) ↔
    ∀ r : RangeSpec, header = r.text → r.Fits fileSize.toNat := by
  constructor
  · rintro ⟨-, -, hselected⟩ r rfl
    exact (parseRange_text r).mp (hselected r rfl)
  · intro hfits
    refine ⟨fun start stop h => parseRange_range h, parseRange_checked header, ?_⟩
    rintro r rfl
    exact (parseRange_text r).mpr (hfits r rfl)

def longRange : RangeSpec :=
  .fromTo ⟨[0x30], by decide, List.all_eq_true.mp (by decide +kernel)⟩
    ⟨"18446744073709551616".toList.map fun c => UInt8.ofNat c.toNat, by decide,
      List.all_eq_true.mp (by decide +kernel)⟩

theorem longRange_refused : ¬((∀ start stop, parseRange longRange.text 1000 = some (start, stop) →
      start ≤ stop ∧ stop < 1000) ∧
    parseRangeBy checkedSub longRange.text 1000 = some (parseRange longRange.text 1000) ∧
    ∀ r : RangeSpec, longRange.text = r.text →
      (parseRange longRange.text 1000).map natural = r.selected 1000) := by
  rintro ⟨-, -, hselected⟩
  have hlong := hselected longRange rfl
  exact absurd hlong (by decide +kernel)

end RenoP.Network.ByteRange
