import RenoP.Lib.Digits
import RenoP.Lib.Comparison

/-!
# Compact identifiers

`Encode` and `Decode` of `pkg/id`: 128-bit values in two words, as 22 characters in base 62.
-/

namespace RenoP.Ids

open Digits (value digits)

structure UUID where
  bytes : List UInt8
  size : bytes.length = 16
  deriving DecidableEq

def UUID.value (u : UUID) : ℕ := Digits.value 256 (u.bytes.map UInt8.toNat)

def encodedLength : ℕ := 22

def base62Chars : List UInt8 :=
  ['0', '1', '2', '3', '4', '5', '6', '7', '8', '9',
   'A', 'B', 'C', 'D', 'E', 'F', 'G', 'H', 'I', 'J', 'K', 'L', 'M',
   'N', 'O', 'P', 'Q', 'R', 'S', 'T', 'U', 'V', 'W', 'X', 'Y', 'Z',
   'a', 'b', 'c', 'd', 'e', 'f', 'g', 'h', 'i', 'j', 'k', 'l', 'm',
   'n', 'o', 'p', 'q', 'r', 's', 't', 'u', 'v', 'w', 'x', 'y', 'z'].map fun c => c.val.toUInt8

def decodeMap : List UInt8 :=
  base62Chars.zipIdx.foldl (fun m e => m.set e.1.toNat (UInt8.ofNat e.2)) (List.replicate 256 0xFF)

/-- `bits.Div64`, which panics where the quotient has more than 64 bits or the divisor is 0 -/
def div64 (hi lo y : UInt64) : Option (UInt64 × UInt64) :=
  if y ≤ hi then none
  else
    let n := hi.toNat * 2 ^ 64 + lo.toNat
    some (UInt64.ofNat (n / y.toNat), UInt64.ofNat (n % y.toNat))

def mul64 (x y : UInt64) : UInt64 × UInt64 :=
  (UInt64.ofNat (x.toNat * y.toNat / 2 ^ 64), UInt64.ofNat (x.toNat * y.toNat))

def add64 (x y carry : UInt64) : UInt64 × UInt64 :=
  let n := x.toNat + y.toNat + carry.toNat
  (UInt64.ofNat n, UInt64.ofNat (n / 2 ^ 64))

def uint64 (b : List UInt8) : UInt64 := UInt64.ofNat (Digits.value 256 (b.map UInt8.toNat))

def putUint64 (v : UInt64) : List UInt8 := (digits 256 8 v.toNat).map UInt8.ofNat

/-- The loop of `Encode` with the number of bytes of `buf` that are not written yet. -/
def encodeLoop : ℕ → UInt64 → UInt64 → List UInt8 → Option (List UInt8)
  | 0, _, _, buf => some buf
  | i + 1, hi, lo, buf =>
    match div64 (hi % 62) lo 62 with
    | none => none
    | some (lo, rem) =>
      match base62Chars[rem.toNat]? with
      | none => none
      | some c => encodeLoop i (hi / 62) lo (c :: buf)

/-- `Encode`, where `none` is a panic -/
def encode (u : UUID) : Option (List UInt8) :=
  encodeLoop encodedLength (uint64 (u.bytes.take 8)) (uint64 (u.bytes.drop 8)) []

def decodeLoop : List UInt8 → UInt64 → UInt64 → Option (UInt64 × UInt64)
  | [], hi, lo => some (hi, lo)
  | c :: s, hi, lo =>
    let val := decodeMap.getD c.toNat 0xFF
    if val = 0xFF then none
    else
      let pLo := mul64 lo 62
      let pHi := mul64 hi 62
      if 0 < pHi.1 then none
      else
        let low := add64 pLo.2 val.toUInt64 0
        let high := add64 pHi.2 pLo.1 low.2
        if 0 < high.2 then none else decodeLoop s high.1 low.1

/-- `Decode`, where `none` is `ErrInvalidID` -/
def decode (s : List UInt8) : Option UUID :=
  if s.length ≠ encodedLength then none
  else (decodeLoop s 0 0).map fun w =>
    { bytes := putUint64 w.1 ++ putUint64 w.2
      size := by simp [putUint64] }

def charValue (c : UInt8) : ℕ := base62Chars.idxOf c

def base62Value (s : List UInt8) : ℕ := Digits.value 62 (s.map charValue)

theorem base62Chars_sorted : base62Chars.Pairwise (· < ·) := by decide +kernel

theorem base62Chars_nodup : base62Chars.Nodup :=
  base62Chars_sorted.imp fun h => UInt8.ne_of_lt h

theorem getD_setPlaces (l : List UInt8) (k : ℕ) (m : List UInt8) (hm : m.length = 256)
    (hl : l.Nodup) (c : UInt8) :
    ((l.zipIdx k).foldl (fun m e => m.set e.1.toNat (UInt8.ofNat e.2)) m).getD c.toNat 0xFF =
      if c ∈ l then UInt8.ofNat (k + l.idxOf c) else m.getD c.toNat 0xFF := by
  induction l generalizing k m with
  | nil => rfl
  | cons a l ih =>
    obtain ⟨ha, hl⟩ := List.nodup_cons.mp hl
    have hset : (m.set a.toNat (UInt8.ofNat k)).length = 256 := by rw [List.length_set, hm]
    rw [List.zipIdx_cons, List.foldl_cons, ih (k + 1) _ hset hl]
    by_cases hc : c = a
    · rw [hc, if_neg ha, if_pos (List.mem_cons_self ..), List.idxOf_cons_self, Nat.add_zero]
      have hlt := UInt8.toNat_lt a
      simp [hm, hlt]
    · have hplace : (a :: l).idxOf c = l.idxOf c + 1 := List.idxOf_cons_ne l (Ne.symm hc)
      have hne : a.toNat ≠ c.toNat := fun h => hc (UInt8.toNat_inj.mp h).symm
      by_cases hmem : c ∈ l
      · rw [if_pos hmem, if_pos (List.mem_cons_of_mem a hmem), hplace]
        congr 1
        omega
      · rw [if_neg hmem, if_neg (List.not_mem_cons_of_ne_of_not_mem hc hmem)]
        simp [hne]

theorem decodeMap_spec (c : UInt8) :
    (c ∈ base62Chars → decodeMap.getD c.toNat 0xFF = UInt8.ofNat (charValue c) ∧ charValue c < 62) ∧
      (c ∉ base62Chars → decodeMap.getD c.toNat 0xFF = 0xFF) := by
  have hget := getD_setPlaces base62Chars 0 (List.replicate 256 0xFF) List.length_replicate
    base62Chars_nodup c
  constructor
  · intro hc
    rw [if_pos hc, Nat.zero_add] at hget
    exact ⟨hget, List.idxOf_lt_length_iff.mpr hc⟩
  · intro hc
    rw [if_neg hc, List.getD_replicate _ (UInt8.toNat_lt c)] at hget
    exact hget

theorem base62Chars_get {n : ℕ} (h : n < 62) :
    ∃ c, base62Chars[n]? = some c ∧ c ∈ base62Chars ∧ charValue c = n := by
  have hn : n < base62Chars.length := h
  exact ⟨base62Chars[n], List.getElem?_eq_getElem hn, List.getElem_mem hn,
    base62Chars_nodup.idxOf_getElem n hn⟩

theorem charValue_inj {c d : UInt8} (hc : c ∈ base62Chars) (h : charValue c = charValue d) :
    c = d :=
  (List.idxOf_inj hc).mp h

theorem getElem_charValue {c : UInt8} (hc : c ∈ base62Chars) :
    ∃ h : charValue c < base62Chars.length, base62Chars[charValue c] = c :=
  ⟨List.idxOf_lt_length_iff.mpr hc, List.getElem_idxOf _⟩

theorem lt_of_charValue_lt {c d : UInt8} (hc : c ∈ base62Chars) (hd : d ∈ base62Chars)
    (h : charValue c < charValue d) : c < d := by
  obtain ⟨hlc, hgetc⟩ := getElem_charValue hc
  obtain ⟨hld, hgetd⟩ := getElem_charValue hd
  rw [← hgetc, ← hgetd]
  exact List.pairwise_iff_getElem.mp base62Chars_sorted _ _ hlc hld h

theorem charValue_lt_iff {c d : UInt8} (hc : c ∈ base62Chars) (hd : d ∈ base62Chars) :
    c < d ↔ charValue c < charValue d := by
  refine ⟨fun hlt => ?_, lt_of_charValue_lt hc hd⟩
  by_contra hnot
  rcases Nat.lt_or_eq_of_le (not_lt.mp hnot) with hbelow | heq
  · exact UInt8.lt_asymm hlt (lt_of_charValue_lt hd hc hbelow)
  · rw [charValue_inj hd heq] at hlt
    exact UInt8.lt_irrefl c hlt

theorem toNat_lt (l : List UInt8) : ∀ d ∈ l.map UInt8.toNat, d < 256 := by
  intro d hd
  obtain ⟨c, -, rfl⟩ := List.mem_map.mp hd
  exact UInt8.toNat_lt c

theorem toNat_word {n : ℕ} (h : n < 2 ^ 64) : (UInt64.ofNat n).toNat = n :=
  UInt64.toNat_ofNat_of_lt' h

theorem uint64_toNat {b : List UInt8} (h : b.length = 8) :
    (uint64 b).toNat = Digits.value 256 (b.map UInt8.toNat) := by
  have hlt := Digits.value_lt (toNat_lt b)
  rw [List.length_map, h] at hlt
  exact toNat_word hlt

theorem putUint64_value (v : UInt64) :
    Digits.value 256 ((putUint64 v).map UInt8.toNat) = v.toNat := by
  have hbytes : (putUint64 v).map UInt8.toNat = digits 256 8 v.toNat := by
    unfold putUint64
    rw [List.map_map]
    conv_rhs => rw [← List.map_id (digits 256 8 v.toNat)]
    apply List.map_congr_left
    intro d hd
    exact UInt8.toNat_ofNat_of_lt (Digits.digits_lt (by decide) hd)
  rw [hbytes, Digits.value_digits]
  exact Nat.mod_eq_of_lt v.toNat_lt

@[simp] theorem putUint64_length (v : UInt64) : (putUint64 v).length = 8 := by simp [putUint64]

def words (hi lo : UInt64) : ℕ := hi.toNat * 2 ^ 64 + lo.toNat

theorem words_lt (hi lo : UInt64) : words hi lo < 2 ^ 128 := by
  have hhi := hi.toNat_lt
  have hlo := lo.toNat_lt
  unfold words
  omega

theorem UUID.value_words (u : UUID) :
    u.value = words (uint64 (u.bytes.take 8)) (uint64 (u.bytes.drop 8)) := by
  have hsize := u.size
  unfold UUID.value words
  rw [uint64_toNat (by simp [hsize]), uint64_toNat (by simp [hsize])]
  conv_lhs => rw [← List.take_append_drop 8 u.bytes, List.map_append, Digits.value_append]
  rw [List.length_map, List.length_drop, hsize]
  rfl

theorem UUID.value_inj {u v : UUID} (h : u.value = v.value) : u = v := by
  have hbytes : u.bytes.map UInt8.toNat = v.bytes.map UInt8.toNat := by
    rw [← Digits.digits_value (toNat_lt u.bytes), ← Digits.digits_value (toNat_lt v.bytes),
      List.length_map, List.length_map, u.size, v.size]
    exact congrArg (digits 256 16) h
  have hsame : u.bytes = v.bytes :=
    List.map_injective_iff.mpr (fun a b hab => UInt8.toNat_inj.mp hab) hbytes
  cases u
  cases v
  congr

theorem div64_spec {hi lo : UInt64} :
    ∃ quo rem, div64 (hi % 62) lo 62 = some (quo, rem) ∧ rem.toNat = words hi lo % 62 ∧
      words (hi / 62) quo = words hi lo / 62 := by
  have hhi := hi.toNat_lt
  have hlo := lo.toNat_lt
  have h62 : (62 : UInt64).toNat = 62 := rfl
  have hrem : (hi % 62).toNat = hi.toNat % 62 := UInt64.toNat_mod ..
  have hdiv : (hi / 62).toNat = hi.toNat / 62 := UInt64.toNat_div ..
  have hlt : ¬(62 : UInt64) ≤ hi % 62 := by
    rw [UInt64.le_iff_toNat_le, hrem, h62]
    omega
  unfold div64 words
  simp only [if_neg hlt, hrem, h62]
  refine ⟨_, _, rfl, ?_, ?_⟩
  · rw [toNat_word (by omega)]
    omega
  · rw [hdiv, toNat_word (by omega)]
    omega

theorem encodeLoop_spec (n : ℕ) (hi lo : UInt64) (buf : List UInt8) :
    ∃ s, encodeLoop n hi lo buf = some (s ++ buf) ∧ (∀ c ∈ s, c ∈ base62Chars) ∧
      s.map charValue = digits 62 n (words hi lo) := by
  induction n generalizing hi lo buf with
  | zero => exact ⟨[], rfl, fun c hc => absurd hc List.not_mem_nil, rfl⟩
  | succ n ih =>
    obtain ⟨quo, rem, hdiv, hrem, hquo⟩ := @div64_spec hi lo
    have hlt : rem.toNat < 62 := by
      rw [hrem]
      exact Nat.mod_lt _ (by decide)
    obtain ⟨c, hget, hmem, hvalue⟩ := base62Chars_get hlt
    obtain ⟨s, hs, hchars, hdigits⟩ := ih (hi / 62) quo (c :: buf)
    refine ⟨s ++ [c], ?_, ?_, ?_⟩
    · unfold encodeLoop
      rw [hdiv]
      simp only [hget, hs]
      simp
    · intro d hd
      rcases List.mem_append.mp hd with hd | hd
      · exact hchars d hd
      · rw [List.mem_singleton.mp hd]
        exact hmem
    · rw [List.map_append, hdigits, hquo, digits, List.map_singleton, hvalue, hrem]

theorem mul64_spec (x y : UInt64) : words (mul64 x y).1 (mul64 x y).2 = x.toNat * y.toNat := by
  have hlt : x.toNat * y.toNat < 2 ^ 64 * 2 ^ 64 := Nat.mul_lt_mul'' x.toNat_lt y.toNat_lt
  unfold words mul64
  rw [toNat_word (by omega), UInt64.toNat_ofNat']
  omega

theorem add64_spec (x y carry : UInt64) :
    words (add64 x y carry).2 (add64 x y carry).1 = x.toNat + y.toNat + carry.toNat := by
  have hx := x.toNat_lt
  have hy := y.toNat_lt
  have hcarry := carry.toNat_lt
  unfold words add64
  rw [toNat_word (by omega), UInt64.toNat_ofNat']
  omega

theorem decodeLoop_cons {c : UInt8} (s : List UInt8) (hi lo : UInt64) (hc : c ∈ base62Chars) :
    (words hi lo * 62 + charValue c < 2 ^ 128 → ∃ hi' lo',
      words hi' lo' = words hi lo * 62 + charValue c ∧
        decodeLoop (c :: s) hi lo = decodeLoop s hi' lo') ∧
    (2 ^ 128 ≤ words hi lo * 62 + charValue c → decodeLoop (c :: s) hi lo = none) := by
  obtain ⟨hmap, hval⟩ := (decodeMap_spec c).1 hc
  have hbyte : (UInt8.ofNat (charValue c)).toUInt64.toNat = charValue c := by
    simp
    omega
  have hne : UInt8.ofNat (charValue c) ≠ 0xFF := by
    intro h
    have hnat := congrArg UInt8.toNat h
    simp at hnat
    omega
  have hpLo := mul64_spec lo 62
  have hpHi := mul64_spec hi 62
  have hlow := add64_spec (mul64 lo 62).2 (UInt8.ofNat (charValue c)).toUInt64 0
  have hhigh := add64_spec (mul64 hi 62).2 (mul64 lo 62).1
    (add64 (mul64 lo 62).2 (UInt8.ofNat (charValue c)).toUInt64 0).2
  rw [decodeLoop]
  simp only [hmap, if_neg hne]
  generalize mul64 lo 62 = pLo at *
  generalize mul64 hi 62 = pHi at *
  rw [hbyte] at hlow
  generalize add64 pLo.2 (UInt8.ofNat (charValue c)).toUInt64 0 = low at *
  generalize add64 pHi.2 pLo.1 low.2 = high at *
  have h62 : (62 : UInt64).toNat = 62 := rfl
  have h0 : (0 : UInt64).toNat = 0 := rfl
  rw [h62] at hpLo hpHi
  rw [h0] at hlow
  have hsum : words hi lo * 62 + charValue c =
      (pHi.1.toNat + high.2.toNat) * 2 ^ 128 + words high.1 low.1 := by
    unfold words at *
    omega
  have hlt := words_lt high.1 low.1
  rw [hsum]
  simp only [UInt64.lt_iff_toNat_lt, h0]
  constructor
  · intro hfits
    have hpHi0 : pHi.1.toNat = 0 := by omega
    have hhigh0 : high.2.toNat = 0 := by omega
    refine ⟨high.1, low.1, ?_, ?_⟩
    · rw [hpHi0, hhigh0, Nat.zero_add, Nat.zero_mul, Nat.zero_add]
    · rw [hpHi0, hhigh0, if_neg (lt_irrefl 0), if_neg (lt_irrefl 0)]
  · intro hover
    split_ifs with hpHi0 hhigh0
    · rfl
    · rfl
    · exact absurd hover (by omega)

theorem decodeLoop_invalid {s : List UInt8} {hi lo : UInt64} {c : UInt8} (hc : c ∈ s)
    (hnot : c ∉ base62Chars) : decodeLoop s hi lo = none := by
  induction s generalizing hi lo with
  | nil => cases hc
  | cons d s ih =>
    unfold decodeLoop
    rcases List.mem_cons.mp hc with rfl | hmem
    · simp only [(decodeMap_spec c).2 hnot, if_true]
    · dsimp only
      split_ifs
      · rfl
      · rfl
      · rfl
      · exact ih hmem

theorem decodeLoop_spec {s : List UInt8} (hs : ∀ c ∈ s, c ∈ base62Chars) (hi lo : UInt64) :
    (words hi lo * 62 ^ s.length + base62Value s < 2 ^ 128 → ∃ hi' lo',
      decodeLoop s hi lo = some (hi', lo') ∧
        words hi' lo' = words hi lo * 62 ^ s.length + base62Value s) ∧
    (2 ^ 128 ≤ words hi lo * 62 ^ s.length + base62Value s → decodeLoop s hi lo = none) := by
  induction s generalizing hi lo with
  | nil =>
    have hlt := words_lt hi lo
    have hsum : words hi lo * 62 ^ ([] : List UInt8).length + base62Value [] = words hi lo := by
      simp [base62Value]
    rw [hsum]
    exact ⟨fun _ => ⟨hi, lo, rfl, rfl⟩, fun hover => absurd hlt (by omega)⟩
  | cons c s ih =>
    have hrest := ih fun d hd => hs d (List.mem_cons_of_mem c hd)
    obtain ⟨hstep, hstop⟩ := decodeLoop_cons s hi lo (hs c (List.mem_cons_self ..))
    have hsum : words hi lo * 62 ^ (c :: s).length + base62Value (c :: s) =
        (words hi lo * 62 + charValue c) * 62 ^ s.length + base62Value s := by
      unfold base62Value
      rw [List.map_cons, Digits.value_cons, List.length_cons, List.length_map, pow_succ]
      ring
    rw [hsum]
    by_cases hfits : words hi lo * 62 + charValue c < 2 ^ 128
    · obtain ⟨hi', lo', hwords, hloop⟩ := hstep hfits
      rw [hloop, ← hwords]
      exact hrest hi' lo'
    · have hgrows : words hi lo * 62 + charValue c ≤
          (words hi lo * 62 + charValue c) * 62 ^ s.length :=
        Nat.le_mul_of_pos_right _ (Nat.pow_pos (by decide))
      exact ⟨fun hlt => absurd hlt (by omega), fun _ => hstop (by omega)⟩

theorem charValues_lt {s : List UInt8} (hs : ∀ c ∈ s, c ∈ base62Chars) :
    ∀ d ∈ s.map charValue, d < 62 := by
  intro d hd
  obtain ⟨c, hc, rfl⟩ := List.mem_map.mp hd
  exact ((decodeMap_spec c).1 (hs c hc)).2

theorem base62_digits {s t : List UInt8} (hs : ∀ c ∈ s, c ∈ base62Chars)
    (ht : ∀ c ∈ t, c ∈ base62Chars)
    (h : t.map charValue = digits 62 s.length (base62Value s)) : t = s := by
  have hmap : t.map charValue = s.map charValue := by
    rw [h, ← List.length_map charValue]
    exact Digits.digits_value (charValues_lt hs)
  clear h
  induction s generalizing t with
  | nil => exact List.map_eq_nil_iff.mp hmap
  | cons c s ih =>
    cases t with
    | nil => cases hmap
    | cons d t =>
      obtain ⟨hhead, htail⟩ := List.cons.inj hmap
      rw [charValue_inj (ht d (List.mem_cons_self ..)) hhead,
        ih (fun e he => hs e (List.mem_cons_of_mem c he))
          (fun e he => ht e (List.mem_cons_of_mem d he)) htail]

theorem lt_iff_charValues {s t : List UInt8} (hs : ∀ c ∈ s, c ∈ base62Chars)
    (ht : ∀ c ∈ t, c ∈ base62Chars) : s < t ↔ s.map charValue < t.map charValue :=
  Comparison.lt_iff_map_lt (fun c hc d hd => charValue_lt_iff (hs c hc) (ht d hd))
    (fun c hc _ _ => charValue_inj (hs c hc))

theorem UUID.value_lt (u : UUID) : u.value < 2 ^ 128 := by
  rw [u.value_words]
  exact words_lt ..

theorem encode_spec (u : UUID) :
    ∃ t, encode u = some t ∧ t.length = encodedLength ∧ (∀ c ∈ t, c ∈ base62Chars) ∧
      t.map charValue = digits 62 encodedLength u.value := by
  obtain ⟨t, henc, hchars, hdigits⟩ :=
    encodeLoop_spec encodedLength (uint64 (u.bytes.take 8)) (uint64 (u.bytes.drop 8)) []
  rw [← u.value_words] at hdigits
  refine ⟨t, ?_, ?_, hchars, hdigits⟩
  · rw [List.append_nil] at henc
    exact henc
  · rw [← List.length_map charValue, hdigits, Digits.length_digits]

theorem base62Value_encode {u : UUID} {t : List UInt8}
    (h : t.map charValue = digits 62 encodedLength u.value) : base62Value t = u.value := by
  have hlt : u.value < 62 ^ encodedLength :=
    lt_of_lt_of_le u.value_lt (by unfold encodedLength; norm_num)
  rw [base62Value, h, Digits.value_digits, Nat.mod_eq_of_lt hlt]

theorem decode_value {s : List UInt8} {u : UUID} (h : decode s = some u) :
    s.length = encodedLength ∧ (∀ c ∈ s, c ∈ base62Chars) ∧ base62Value s = u.value := by
  unfold decode at h
  split_ifs at h with hlength
  obtain ⟨⟨hi, lo⟩, hloop, rfl⟩ := Option.map_eq_some_iff.mp h
  have hs : ∀ c ∈ s, c ∈ base62Chars := by
    intro c hc
    by_contra hnot
    rw [decodeLoop_invalid hc hnot] at hloop
    cases hloop
  refine ⟨not_not.mp hlength, hs, ?_⟩
  have hzero : words 0 0 * 62 ^ s.length + base62Value s = base62Value s := by simp [words]
  obtain ⟨hfits, hover⟩ := decodeLoop_spec hs 0 0
  rw [hzero] at hfits hover
  by_cases hlt : base62Value s < 2 ^ 128
  · obtain ⟨hi', lo', hloop', hwords⟩ := hfits hlt
    rw [hloop] at hloop'
    cases hloop'
    rw [← hwords, UUID.value]
    simp only [List.map_append, Digits.value_append, putUint64_value, List.length_map,
      putUint64_length]
    rfl
  · rw [hover (by omega)] at hloop
    cases hloop

theorem decode_of_value {s : List UInt8} {u : UUID} (hlength : s.length = encodedLength)
    (hs : ∀ c ∈ s, c ∈ base62Chars) (hvalue : base62Value s = u.value) : decode s = some u := by
  obtain ⟨hfits, -⟩ := decodeLoop_spec hs 0 0
  have hzero : words 0 0 * 62 ^ s.length + base62Value s = u.value := by simp [words, hvalue]
  rw [hzero] at hfits
  obtain ⟨hi, lo, hloop, -⟩ := hfits u.value_lt
  cases hdecode : decode s with
  | none =>
    rw [decode, if_neg (not_not.mpr hlength), hloop] at hdecode
    cases hdecode
  | some v => rw [UUID.value_inj ((decode_value hdecode).2.2.symm.trans hvalue)]

/-- Compact identifiers are the 128-bit integers, in the same order. -/
theorem compact_ids (u v : UUID) (s : List UInt8) :
    (∃ t, encode u = some t ∧ t.length = 22 ∧ decode t = some u) ∧
    (decode s = some u → encode u = some s) ∧
    (s.length = 22 → (∀ c ∈ s, c ∈ base62Chars) → 2 ^ 128 ≤ base62Value s → decode s = none) ∧
    ((∃ c ∈ s, c ∉ base62Chars) → decode s = none) ∧
    (∀ t t', encode u = some t → encode v = some t' → (t < t' ↔ u.value < v.value)) := by
  obtain ⟨t, hencode, hlength, hchars, hdigits⟩ := encode_spec u
  refine ⟨⟨t, hencode, hlength, decode_of_value hlength hchars (base62Value_encode hdigits)⟩,
    ?_, ?_, ?_, ?_⟩
  · intro h
    obtain ⟨hslength, hs, hvalue⟩ := decode_value h
    rw [hencode, base62_digits hs hchars (by rw [hdigits, hslength, hvalue])]
  · intro _ _ hover
    by_contra hdecode
    obtain ⟨w, hw⟩ := Option.ne_none_iff_exists'.mp hdecode
    have hvalue := (decode_value hw).2.2
    exact absurd w.value_lt (by omega)
  · rintro ⟨c, hc, hnot⟩
    by_contra hdecode
    obtain ⟨w, hw⟩ := Option.ne_none_iff_exists'.mp hdecode
    exact hnot ((decode_value hw).2.1 c hc)
  · intro t₁ t₂ h₁ h₂
    obtain ⟨t', hencode', hlength', hchars', hdigits'⟩ := encode_spec v
    rw [hencode] at h₁
    rw [hencode'] at h₂
    cases h₁
    cases h₂
    rw [lt_iff_charValues hchars hchars',
      Digits.lt_iff_value_lt (charValues_lt hchars) (charValues_lt hchars')
        (by rw [List.length_map, List.length_map, hlength, hlength'])]
    rw [← base62Value_encode hdigits, ← base62Value_encode hdigits']
    rfl

end RenoP.Ids
