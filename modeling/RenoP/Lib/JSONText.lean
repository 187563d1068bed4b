import Mathlib.Data.List.Basic
import Mathlib.Tactic.Ring

/-!
# Compact JSON texts

How an encoder writes a value on one line, and how many bytes it takes. How a character is written
between quotes is a parameter.
-/

namespace JSONText

abbrev Bytes := List UInt8

inductive Value where
  | null
  | bool (b : Bool)
  | num (digits : List (Fin 10))
  | str (s : List Char)
  | arr (vs : List Value)
  | obj (fields : List (List Char × Value))

structure Escape where
  char : Char → Bytes
  one_line : ∀ c, (10 : UInt8) ∉ char c

variable (e : Escape)

def quote (s : List Char) : Bytes := 0x22 :: s.flatMap e.char ++ [0x22]

def digit (d : Fin 10) : UInt8 := [0x30, 0x31, 0x32, 0x33, 0x34, 0x35, 0x36, 0x37, 0x38, 0x39].get d

mutual

def encode : Value → Bytes
  | .null => [0x6e, 0x75, 0x6c, 0x6c]
  | .bool true => [0x74, 0x72, 0x75, 0x65]
  | .bool false => [0x66, 0x61, 0x6c, 0x73, 0x65]
  | .num digits => digits.map digit
  | .str s => quote e s
  | .arr vs => 0x5b :: (encodeList vs).tail ++ [0x5d]
  | .obj fields => 0x7b :: (encodeFields fields).tail ++ [0x7d]

def encodeList : List Value → Bytes
  | [] => []
  | v :: vs => 0x2c :: encode v ++ encodeList vs

def encodeFields : List (List Char × Value) → Bytes
  | [] => []
  | (k, v) :: fields => 0x2c :: quote e k ++ 0x3a :: encode v ++ encodeFields fields

end

def quoteSize (s : List Char) : ℕ := (s.map fun c => (e.char c).length).sum + 2

mutual

def size : Value → ℕ
  | .null => 4
  | .bool true => 4
  | .bool false => 5
  | .num digits => digits.length
  | .str s => quoteSize e s
  | .arr vs => sizeList vs - 1 + 2
  | .obj fields => sizeFields fields - 1 + 2

def sizeList : List Value → ℕ
  | [] => 0
  | v :: vs => 1 + size v + sizeList vs

def sizeFields : List (List Char × Value) → ℕ
  | [] => 0
  | (k, v) :: fields => 1 + quoteSize e k + 1 + size v + sizeFields fields

end

variable {e}

theorem length_quote (s : List Char) : (quote e s).length = quoteSize e s := by
  simp [quote, quoteSize, List.length_flatMap]

mutual

theorem length_encode : ∀ v : Value, (encode e v).length = size e v
  | .null => rfl
  | .bool true => rfl
  | .bool false => rfl
  | .num digits => by simp [encode, size]
  | .str s => length_quote s
  | .arr vs => by simp [encode, size, length_encodeList vs]
  | .obj fields => by simp [encode, size, length_encodeFields fields]

theorem length_encodeList : ∀ vs : List Value, (encodeList e vs).length = sizeList e vs
  | [] => rfl
  | v :: vs => by
    simp only [encodeList, sizeList, List.cons_append, List.length_cons, List.length_append,
      length_encode v, length_encodeList vs]
    omega

theorem length_encodeFields :
    ∀ fields : List (List Char × Value), (encodeFields e fields).length = sizeFields e fields
  | [] => rfl
  | (k, v) :: fields => by
    simp only [encodeFields, sizeFields, List.cons_append, List.length_cons, List.length_append,
      length_quote k, length_encode v, length_encodeFields fields]
    omega

end

theorem newline_not_mem_quote (s : List Char) : (10 : UInt8) ∉ quote e s := by
  simp only [quote, List.cons_append, List.mem_cons, List.mem_append, List.mem_flatMap,
    List.not_mem_nil, or_false, not_or]
  refine ⟨by decide, ?_, by decide⟩
  rintro ⟨c, -, hc⟩
  exact e.one_line c hc

theorem newline_ne_digit (d : Fin 10) : (10 : UInt8) ≠ digit d := by
  revert d
  decide

theorem not_mem_tail {b : UInt8} {data : Bytes} (h : b ∉ data) : b ∉ data.tail :=
  fun hmem => h (List.mem_of_mem_tail hmem)

mutual

theorem newline_not_mem_encode : ∀ v : Value, (10 : UInt8) ∉ encode e v
  | .null => by simp [encode]
  | .bool true => by simp [encode]
  | .bool false => by simp [encode]
  | .num digits => by
    simp only [encode, List.mem_map, not_exists, not_and]
    exact fun d _ => (newline_ne_digit d).symm
  | .str s => newline_not_mem_quote s
  | .arr vs => by
    have htail := not_mem_tail (newline_not_mem_encodeList vs)
    simp [encode, htail]
  | .obj fields => by
    have htail := not_mem_tail (newline_not_mem_encodeFields fields)
    simp [encode, htail]

theorem newline_not_mem_encodeList : ∀ vs : List Value, (10 : UInt8) ∉ encodeList e vs
  | [] => List.not_mem_nil
  | v :: vs => by
    simp [encodeList, newline_not_mem_encode v, newline_not_mem_encodeList vs]

theorem newline_not_mem_encodeFields :
    ∀ fields : List (List Char × Value), (10 : UInt8) ∉ encodeFields e fields
  | [] => List.not_mem_nil
  | (k, v) :: fields => by
    simp [encodeFields, newline_not_mem_quote k, newline_not_mem_encode v,
      newline_not_mem_encodeFields fields]

end

theorem quoteSize_replicate (n : ℕ) (c : Char) :
    quoteSize e (List.replicate n c) = n * (e.char c).length + 2 := by
  simp [quoteSize]

theorem sizeList_replicate (n : ℕ) (v : Value) :
    sizeList e (List.replicate n v) = n * (1 + size e v) := by
  induction n with
  | zero => simp [sizeList]
  | succ n ih =>
    simp only [List.replicate_succ, sizeList, ih]
    ring

def hexDigit (n : ℕ) : UInt8 := if n < 10 then 0x30 + n.toUInt8 else 0x57 + n.toUInt8

def unicodeEscape (n : ℕ) : Bytes :=
  [0x5c, 0x75, hexDigit (n / 4096 % 16), hexDigit (n / 256 % 16), hexDigit (n / 16 % 16),
    hexDigit (n % 16)]

def asciiChar (special : List Char) (c : Char) : Bytes :=
  if c = '"' ∨ c = '\\' then [0x5c, c.toUInt8]
  else if 0x20 ≤ c.val ∧ c.val < 0x7f ∧ c ∉ special then [c.toUInt8]
  else if c.val < 0x10000 then unicodeEscape c.toNat
  else unicodeEscape (0xd800 + (c.toNat - 0x10000) / 0x400) ++
    unicodeEscape (0xdc00 + (c.toNat - 0x10000) % 0x400)

theorem newline_ne_hexDigit {n : ℕ} (h : n < 16) : (10 : UInt8) ≠ hexDigit n := by
  have hall : ∀ d : Fin 16, (10 : UInt8) ≠ hexDigit d.val := by decide
  exact hall ⟨n, h⟩

theorem newline_not_mem_unicodeEscape (n : ℕ) : (10 : UInt8) ∉ unicodeEscape n := by
  simp only [unicodeEscape, List.mem_cons, List.not_mem_nil, or_false, not_or]
  refine ⟨by decide, by decide, ?_, ?_, ?_, ?_⟩ <;>
    exact newline_ne_hexDigit (Nat.mod_lt _ (by decide))

theorem newline_not_mem_asciiChar (special : List Char) (c : Char) :
    (10 : UInt8) ∉ asciiChar special c := by
  unfold asciiChar
  split_ifs with hquote hplain
  · obtain rfl | rfl := hquote <;> decide
  · rw [List.mem_singleton]
    intro hten
    have hbyte : (10 : ℕ) = c.val.toNat % 256 := by
      rw [← UInt32.toNat_toUInt8]
      exact congrArg UInt8.toNat hten
    have hlow : 32 ≤ c.val.toNat := UInt32.le_iff_toNat_le.mp hplain.1
    have hhigh : c.val.toNat < 127 := UInt32.lt_iff_toNat_lt.mp hplain.2.1
    omega
  · exact newline_not_mem_unicodeEscape _
  · rw [List.mem_append, not_or]
    exact ⟨newline_not_mem_unicodeEscape _, newline_not_mem_unicodeEscape _⟩

/-- `<`, `>` and `&` are written as six bytes. -/
def html : Escape := ⟨asciiChar ['<', '>', '&'], newline_not_mem_asciiChar _⟩

def plain : Escape := ⟨asciiChar [], newline_not_mem_asciiChar _⟩

end JSONText
