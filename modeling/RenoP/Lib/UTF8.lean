import Mathlib.Algebra.Order.Ring.Nat
import Mathlib.Data.List.Basic

/-!
# UTF-8 (package unicode/utf8 of the Go standard library)

A byte is read with what is still missing of the character before it: how many bytes, the value so
far, and the range of the next byte.
-/

namespace UTF8

/-- A character that is not complete; `more` is 0 between characters. -/
structure Pending where
  more : ℕ
  value : ℕ
  lo : ℕ
  hi : ℕ

def Pending.none : Pending := ⟨0, 0, 0, 0⟩

/-- The ranges of `acceptRanges` by the first byte of a character of two bytes or more. -/
def leading (b : ℕ) : Option Pending :=
  if 0xC2 ≤ b ∧ b ≤ 0xDF then some ⟨1, b % 32, 0x80, 0xBF⟩
  else if b = 0xE0 then some ⟨2, b % 16, 0xA0, 0xBF⟩
  else if b = 0xED then some ⟨2, b % 16, 0x80, 0x9F⟩
  else if 0xE1 ≤ b ∧ b ≤ 0xEF then some ⟨2, b % 16, 0x80, 0xBF⟩
  else if b = 0xF0 then some ⟨3, b % 8, 0x90, 0xBF⟩
  else if 0xF1 ≤ b ∧ b ≤ 0xF3 then some ⟨3, b % 8, 0x80, 0xBF⟩
  else if b = 0xF4 then some ⟨3, b % 8, 0x80, 0x8F⟩
  else Option.none

def scan : Pending → List UInt8 → Option (List Char)
  | p, [] => if p.more = 0 then some [] else Option.none
  | p, b :: bs =>
    let n := b.toNat
    if p.more = 0 then
      if n < 0x80 then (scan Pending.none bs).map (Char.ofNat n :: ·)
      else match leading n with
      | some p => scan p bs
      | Option.none => Option.none
    else if p.lo ≤ n ∧ n ≤ p.hi then
      let value := p.value * 64 + n % 64
      if p.more = 1 then (scan Pending.none bs).map (Char.ofNat value :: ·)
      else scan ⟨p.more - 1, value, 0x80, 0xBF⟩ bs
    else Option.none

/-- The runes of a string, none where `utf8.ValidString` is false. -/
def decode (s : List UInt8) : Option (List Char) := scan Pending.none s

def Pending.Ok (p : Pending) : Prop := p.more ≠ 0 → 0x80 ≤ p.lo

theorem Pending.none_ok : Pending.none.Ok := fun h => absurd rfl h

def Pending.first (p : Pending) : ℕ := (p.value * 64 + (p.lo - 0x80)) * 64 ^ (p.more - 1)

def Pending.bound (p : Pending) : ℕ := (p.value * 64 + (p.hi - 0x80) + 1) * 64 ^ (p.more - 1)

theorem leading_spec {b : ℕ} {p : Pending} (h : leading b = some p) :
    p.more ≠ 0 ∧ 0x80 ≤ p.lo ∧ p.hi ≤ 0xBF ∧ 0x80 ≤ p.first ∧
      (p.bound ≤ 0xD800 ∨ 0xE000 ≤ p.first ∧ p.bound ≤ 0x110000) := by
  unfold leading at h
  unfold Pending.first Pending.bound
  split_ifs at h <;> cases h <;> dsimp only <;> omega

theorem leading_ok {b : ℕ} {p : Pending} (h : leading b = some p) : p.Ok :=
  fun _ => (leading_spec h).2.1

theorem scan_boundary {p : Pending} (h : p.more = 0) (s : List UInt8) : scan p s = decode s := by
  unfold decode
  cases s with
  | nil => simp [scan, h, Pending.none]
  | cons b s => simp [scan, h, Pending.none]

theorem scan_append {p : Pending} {s t : List UInt8} {cs ds : List Char}
    (hs : scan p s = some cs) (ht : decode t = some ds) : scan p (s ++ t) = some (cs ++ ds) := by
  induction s generalizing p cs with
  | nil =>
    unfold scan at hs
    split_ifs at hs with hmore
    cases hs
    rw [List.nil_append, scan_boundary hmore, ht, List.nil_append]
  | cons b s ih =>
    rw [List.cons_append]
    unfold scan at hs ⊢
    dsimp only at hs ⊢
    split_ifs at hs ⊢ with hmore hascii hrange hlast
    · obtain ⟨rest, hrest, rfl⟩ := Option.map_eq_some_iff.mp hs
      rw [ih hrest]
      rfl
    · cases hlead : leading b.toNat with
      | none =>
        rw [hlead] at hs
        cases hs
      | some q =>
        rw [hlead] at hs
        exact ih hs
    · obtain ⟨rest, hrest, rfl⟩ := Option.map_eq_some_iff.mp hs
      rw [ih hrest]
      rfl
    · exact ih hs

theorem decode_append {s t : List UInt8} {cs ds : List Char} (hs : decode s = some cs)
    (ht : decode t = some ds) : decode (s ++ t) = some (cs ++ ds) :=
  scan_append hs ht

theorem decode_singleton {b : UInt8} (h : b.toNat < 0x80) :
    decode [b] = some [Char.ofNat b.toNat] := by
  unfold decode scan
  rw [if_pos (show Pending.none.more = 0 from rfl), if_pos h]
  rfl

theorem scan_ascii {p : Pending} (hp : p.Ok) {s : List UInt8} {cs : List Char}
    (hs : scan p s = some cs) {b : UInt8} (hb : b ∈ s) (hlt : b.toNat < 0x80) :
    Char.ofNat b.toNat ∈ cs := by
  induction s generalizing p cs with
  | nil => cases hb
  | cons a s ih =>
    unfold scan at hs
    dsimp only at hs
    split_ifs at hs with hmore hascii hrange hlast
    · obtain ⟨rest, hrest, rfl⟩ := Option.map_eq_some_iff.mp hs
      rcases List.mem_cons.mp hb with rfl | hmem
      · exact List.mem_cons_self ..
      · exact List.mem_cons_of_mem _ (ih Pending.none_ok hrest hmem)
    · cases hlead : leading a.toNat with
      | none =>
        rw [hlead] at hs
        cases hs
      | some q =>
        rw [hlead] at hs
        rcases List.mem_cons.mp hb with rfl | hmem
        · exact absurd hlt hascii
        · exact ih (leading_ok hlead) hs hmem
    · obtain ⟨rest, hrest, rfl⟩ := Option.map_eq_some_iff.mp hs
      have hlo := hp hmore
      rcases List.mem_cons.mp hb with rfl | hmem
      · omega
      · exact List.mem_cons_of_mem _ (ih Pending.none_ok hrest hmem)
    · have hlo := hp hmore
      rcases List.mem_cons.mp hb with rfl | hmem
      · omega
      · exact ih (fun _ => Nat.le_refl _) hs hmem

theorem decode_ascii {s : List UInt8} {cs : List Char} (hs : decode s = some cs) {b : UInt8}
    (hb : b ∈ s) (hlt : b.toNat < 0x80) : Char.ofNat b.toNat ∈ cs :=
  scan_ascii Pending.none_ok hs hb hlt

example : decode [0xE2, 0x82, 0xAC] = some ['€'] := by rfl

/-- `unicode.ToLower`; the table is that of the runes beyond ASCII. -/
def unicodeToLower (table : Char → Char) (c : Char) : Char :=
  if c ≤ '\x7f' then c.toLower else table c

/-- `utf8.DecodeRune`: the rune that a text starts with and its width. A byte that starts no rune
stands for itself. -/
def decodeRune (b : UInt8) (bs : List UInt8) : Option Char × ℕ :=
  if b.toNat < 0x80 then (some (Char.ofNat b.toNat), 1)
  else
    match leading b.toNat with
    | Option.none => (Option.none, 1)
    | some p =>
      match scan p (bs.take p.more) with
      | some [c] => (some c, p.more + 1)
      | _ => (Option.none, 1)

def runeError : Char := '\uFFFD'

def mapN (f : Char → Char) : ℕ → List UInt8 → List UInt8
  | 0, _ => []
  | _ + 1, [] => []
  | n + 1, b :: bs =>
    String.utf8EncodeChar (f ((decodeRune b bs).1.getD runeError)) ++
      mapN f n ((b :: bs).drop (decodeRune b bs).2)

/-- `strings.Map` of a mapping that drops no rune -/
def mapRunes (f : Char → Char) (s : List UInt8) : List UInt8 := mapN f s.length s

def Starts (b : UInt8) : Prop := b.toNat < 0x80 ∨ 0xC0 ≤ b.toNat

def Pending.Within (p : Pending) : Prop := p.more ≠ 0 → 0x80 ≤ p.lo ∧ p.hi ≤ 0xBF

theorem leading_within {b : ℕ} {p : Pending} (h : leading b = some p) : p.Within ∧ p.more ≠ 0 := by
  obtain ⟨hmore, hlo, hhi, -⟩ := leading_spec h
  exact ⟨fun _ => ⟨hlo, hhi⟩, hmore⟩

theorem scan_short {p : Pending} {s : List UInt8} (h : s.length < p.more) :
    scan p s = Option.none := by
  induction s generalizing p with
  | nil =>
    have hmore : p.more ≠ 0 := Nat.ne_of_gt h
    rw [scan, if_neg hmore]
  | cons b s ih =>
    rw [List.length_cons] at h
    have hmore : p.more ≠ 0 := by omega
    have hlast : p.more ≠ 1 := by omega
    unfold scan
    simp only [if_neg hmore, if_neg hlast]
    split_ifs
    · exact ih (by dsimp only; omega)
    · rfl

theorem scan_interrupted {p : Pending} (hp : p.Within) {s : List UInt8} (h : s.length < p.more)
    {b : UInt8} (hb : Starts b) (r : List UInt8) : scan p (s ++ b :: r) = Option.none := by
  induction s generalizing p with
  | nil =>
    have hmore : p.more ≠ 0 := Nat.ne_of_gt h
    obtain ⟨hlo, hhi⟩ := hp hmore
    have hrange : ¬(p.lo ≤ b.toNat ∧ b.toNat ≤ p.hi) := by
      rcases hb with hb | hb <;> omega
    rw [List.nil_append, scan]
    simp only [if_neg hmore, if_neg hrange]
  | cons a s ih =>
    rw [List.length_cons] at h
    have hmore : p.more ≠ 0 := by omega
    have hlast : p.more ≠ 1 := by omega
    rw [List.cons_append, scan]
    simp only [if_neg hmore, if_neg hlast]
    split_ifs
    · exact ih (fun _ => ⟨Nat.le_refl _, Nat.le_refl _⟩) (by dsimp only; omega)
    · rfl

theorem decodeRune_width (b : UInt8) (bs : List UInt8) :
    0 < (decodeRune b bs).2 ∧ (decodeRune b bs).2 ≤ bs.length + 1 := by
  unfold decodeRune
  split_ifs
  · exact ⟨Nat.one_pos, by simp⟩
  · cases hlead : leading b.toNat with
    | none => exact ⟨Nat.one_pos, by simp⟩
    | some p =>
      by_cases hlength : bs.length < p.more
      · have hshort : scan p bs = Option.none := scan_short hlength
        simp only [List.take_of_length_le (Nat.le_of_lt hlength), hshort]
        exact ⟨Nat.one_pos, by omega⟩
      · dsimp only
        split
        · exact ⟨Nat.succ_pos _, by dsimp only; omega⟩
        · exact ⟨Nat.one_pos, by dsimp only; omega⟩

theorem scan_rune {p : Pending} (hp : p.Within) (hmore : p.more ≠ 0) {s : List UInt8} {c : Char}
    (h : scan p s = some [c]) : ∃ v, c = Char.ofNat v ∧ p.first ≤ v ∧ v < p.bound := by
  unfold Pending.first Pending.bound
  induction s generalizing p with
  | nil => simp [scan, hmore] at h
  | cons b s ih =>
    obtain ⟨hlo, hhi⟩ := hp hmore
    unfold scan at h
    simp only [if_neg hmore] at h
    split_ifs at h with hrange hlast
    · obtain ⟨rest, -, hrest⟩ := Option.map_eq_some_iff.mp h
      refine ⟨_, (List.cons.inj hrest).1.symm, ?_⟩
      rw [hlast]
      omega
    · obtain ⟨v, hv, hle, hlt⟩ := ih (fun _ => ⟨Nat.le_refl _, Nat.le_refl _⟩)
        (by dsimp only; omega) h
      obtain ⟨k, hk⟩ : ∃ k, p.more = k + 2 := ⟨p.more - 2, by omega⟩
      have hmod : b.toNat % 64 = b.toNat - 0x80 := by omega
      have hbegin : p.value * 64 + (p.lo - 0x80) ≤ p.value * 64 + b.toNat % 64 := by omega
      have hend : p.value * 64 + b.toNat % 64 + 1 ≤ p.value * 64 + (p.hi - 0x80) + 1 := by omega
      have hpow : p.more - 1 = k + 1 := by omega
      simp only [hpow, Nat.add_sub_cancel] at hle hlt
      rw [hpow, Nat.pow_succ']
      refine ⟨v, hv, ?_, ?_⟩
      · calc (p.value * 64 + (p.lo - 0x80)) * (64 * 64 ^ k)
            ≤ (p.value * 64 + b.toNat % 64) * (64 * 64 ^ k) := Nat.mul_le_mul_right _ hbegin
          _ = ((p.value * 64 + b.toNat % 64) * 64 + (0x80 - 0x80)) * 64 ^ k := by
            rw [Nat.sub_self, Nat.add_zero, Nat.mul_assoc]
          _ ≤ v := hle
      · calc v < ((p.value * 64 + b.toNat % 64) * 64 + (0xBF - 0x80) + 1) * 64 ^ k := hlt
          _ = (p.value * 64 + b.toNat % 64 + 1) * (64 * 64 ^ k) := by
            rw [← Nat.mul_assoc, Nat.add_mul _ 1 64]
          _ ≤ (p.value * 64 + (p.hi - 0x80) + 1) * (64 * 64 ^ k) := Nat.mul_le_mul_right _ hend

theorem toNat_ofNat {v : ℕ} (h : v < 0xD800 ∨ (0xE000 ≤ v ∧ v < 0x110000)) :
    (Char.ofNat v).toNat = v := by
  have hvalid : v.isValidChar := by
    unfold Nat.isValidChar
    omega
  rw [Char.ofNat, dif_pos hvalid]
  rfl

theorem decodeRune_beyond {b : UInt8} (hb : ¬b.toNat < 0x80) {bs : List UInt8} {c : Char}
    (h : (decodeRune b bs).1 = some c) : 0x80 ≤ c.toNat := by
  unfold decodeRune at h
  rw [if_neg hb] at h
  cases hlead : leading b.toNat with
  | none => simp [hlead] at h
  | some p =>
    rw [hlead] at h
    obtain ⟨hwithin, hmore⟩ := leading_within hlead
    dsimp only at h
    split at h
    next d hscan =>
      cases h
      obtain ⟨v, rfl, hle, hlt⟩ := scan_rune hwithin hmore hscan
      have hbounds : 0x80 ≤ v ∧ (v < 0xD800 ∨ (0xE000 ≤ v ∧ v < 0x110000)) := by
        obtain ⟨-, -, -, hfirst, hbound⟩ := leading_spec hlead
        omega
      rw [toNat_ofNat hbounds.2]
      exact hbounds.1
    next => cases h

theorem decodeRune_append {b : UInt8} (hb : Starts b) (a : UInt8) (s r : List UInt8) :
    decodeRune a (s ++ b :: r) = decodeRune a s := by
  unfold decodeRune
  split_ifs
  · rfl
  · cases hlead : leading a.toNat with
    | none => rfl
    | some p =>
      obtain ⟨hwithin, -⟩ := leading_within hlead
      dsimp only
      by_cases hlength : s.length < p.more
      · have hshort : scan p s = Option.none := scan_short hlength
        obtain ⟨n, hn⟩ : ∃ n, p.more - s.length = n + 1 := ⟨p.more - s.length - 1, by omega⟩
        rw [List.take_append, List.take_of_length_le (Nat.le_of_lt hlength), hn, List.take_succ_cons,
          scan_interrupted hwithin hlength hb, hshort]
      · rw [List.take_append_of_le_length (Nat.le_of_not_lt hlength)]

theorem decodeRune_complete {b : UInt8} {s : List UInt8} {c : Char}
    (h : decodeRune b s = (some c, s.length + 1)) (r : List UInt8) :
    decodeRune b (s ++ r) = (some c, s.length + 1) := by
  unfold decodeRune at h ⊢
  split_ifs at h ⊢
  · exact h
  · cases hlead : leading b.toNat with
    | none => simp [hlead] at h
    | some p =>
      rw [hlead] at h
      dsimp only at h ⊢
      split at h
      next d hscan =>
        have hmore : p.more = s.length := Nat.succ.inj (Prod.mk.inj h).2
        rw [List.take_append_of_le_length (Nat.le_of_eq hmore), hscan]
        exact h
      next => cases (Prod.mk.inj h).1

section

variable (f : Char → Char)

theorem mapN_eq {n m : ℕ} {s : List UInt8} (hn : s.length ≤ n) (hm : s.length ≤ m) :
    mapN f n s = mapN f m s := by
  have hnil : ∀ n, mapN f n [] = [] := by
    intro n
    cases n with
    | zero => rfl
    | succ n => rfl
  induction n generalizing m s with
  | zero => rw [List.length_eq_zero_iff.mp (Nat.le_zero.mp hn), hnil, hnil]
  | succ n ih =>
    cases s with
    | nil => rw [hnil, hnil]
    | cons b bs =>
      rw [List.length_cons] at hn hm
      obtain ⟨m, rfl⟩ : ∃ k, m = k + 1 := ⟨m - 1, by omega⟩
      obtain ⟨hpos, -⟩ := decodeRune_width b bs
      rw [mapN, mapN, ih]
      · rw [List.length_drop, List.length_cons]
        omega
      · rw [List.length_drop, List.length_cons]
        omega

theorem mapRunes_cons (b : UInt8) (bs : List UInt8) : mapRunes f (b :: bs) =
    String.utf8EncodeChar (f ((decodeRune b bs).1.getD runeError)) ++
      mapRunes f ((b :: bs).drop (decodeRune b bs).2) := by
  obtain ⟨hpos, -⟩ := decodeRune_width b bs
  unfold mapRunes
  rw [List.length_cons, mapN]
  congr 1
  refine mapN_eq f ?_ (Nat.le_refl _)
  rw [List.length_drop, List.length_cons]
  omega

theorem mapRunes_append {b : UInt8} (hb : Starts b) (s r : List UInt8) :
    mapRunes f (s ++ b :: r) = mapRunes f s ++ mapRunes f (b :: r) := by
  induction hn : s.length using Nat.strongRecOn generalizing s with
  | ind n ih =>
    cases s with
    | nil => rfl
    | cons a s =>
      obtain ⟨hpos, hle⟩ := decodeRune_width a s
      have hdrop : (a :: (s ++ b :: r)).drop (decodeRune a s).2 =
          (a :: s).drop (decodeRune a s).2 ++ b :: r := by
        rw [← List.cons_append, List.drop_append_of_le_length (by simpa using hle)]
      rw [List.cons_append, mapRunes_cons, mapRunes_cons, decodeRune_append hb, hdrop,
        List.append_assoc]
      rw [ih _ ?_ _ rfl]
      rw [List.length_drop, ← hn, List.length_cons]
      omega

theorem mapRunes_ascii {b : UInt8} (hb : b.toNat < 0x80) (r : List UInt8) :
    mapRunes f (b :: r) = String.utf8EncodeChar (f (Char.ofNat b.toNat)) ++ mapRunes f r := by
  have hrune : decodeRune b r = (some (Char.ofNat b.toNat), 1) := if_pos hb
  rw [mapRunes_cons, hrune]
  rfl

end

end UTF8
