import RenoP.Lib.PrefixCode

/-!
# Row keys (internal/database/clickhouse_sql.go, clickhouse_schema.go)

The key of a row in the transaction journal, as `encodeClickHouseKey` writes it and as the column
`_renop_key` computes it. A value is NULL or the bytes of its text.
-/

namespace RenoP.Database

abbrev Bytes := List UInt8

/-- `%d` of a number that is not negative -/
def decimal (n : ℕ) : Bytes := (Nat.toDigits 10 n).map Char.toUInt8

def encodeKeyValue : Option Bytes → Bytes
  | none => ['N'.toUInt8]
  | some text => 'S'.toUInt8 :: (decimal text.length ++ ':'.toUInt8 :: text)

def encodeClickHouseKey (values : List (Option Bytes)) : Bytes := values.flatMap encodeKeyValue

/-- The expressions that `clickHouseKeyExpression` is made of. -/
inductive KeyExpression where
  | literal (text : Bytes)
  /-- `if(isNull(column), then, else)` -/
  | ifIsNull (name : Bytes) (then' else' : KeyExpression)
  /-- `ifNull(toString(column), '')` -/
  | orEmpty (name : Bytes)
  /-- `toString(length(value))` -/
  | lengthOf (value : KeyExpression)
  | concat (parts : List KeyExpression)

def clickHouseKeyExpression (columns : List Bytes) : KeyExpression :=
  .concat (columns.map fun column =>
    .ifIsNull column (.literal ['N'.toUInt8])
      (.concat [.literal ['S'.toUInt8], .lengthOf (.orEmpty column), .literal [':'.toUInt8],
        .orEmpty column]))

/-- What an expression gives in a row, where `toString` of each column is known; `length` counts
bytes. -/
def KeyExpression.eval (row : Bytes → Option Bytes) : KeyExpression → Bytes
  | .literal text => text
  | .ifIsNull name then' else' => if row name = none then then'.eval row else else'.eval row
  | .orEmpty name => (row name).getD []
  | .lengthOf value => decimal (value.eval row).length
  | .concat parts => (parts.map fun part => part.eval row).flatten

theorem clickHouseKeyExpression_eval (row : Bytes → Option Bytes) (columns : List Bytes) :
    (clickHouseKeyExpression columns).eval row = encodeClickHouseKey (columns.map row) := by
  unfold clickHouseKeyExpression encodeClickHouseKey
  rw [KeyExpression.eval, List.map_map, List.flatMap_map, List.flatMap_def]
  congr 1
  refine List.map_congr_left fun column _ => ?_
  cases hvalue : row column with
  | none => simp [KeyExpression.eval, encodeKeyValue, hvalue]
  | some text => simp [KeyExpression.eval, encodeKeyValue, hvalue]

theorem toUInt8_of_isDigit {c : Char} (h : c.isDigit = true) : Char.ofNat c.toUInt8.toNat = c := by
  obtain ⟨hlow, hhigh⟩ : 48 ≤ c.toNat ∧ c.toNat ≤ 57 := by
    simpa [Char.isDigit, UInt32.le_iff_toNat_le] using h
  have hbyte : c.toUInt8.toNat = c.toNat := by
    simp only [Char.toUInt8, UInt32.toNat_toUInt8]
    exact Nat.mod_eq_of_lt (lt_of_le_of_lt hhigh (by decide))
  rw [hbyte, Char.ofNat_toNat]

theorem decimal_injective : Function.Injective decimal := by
  intro m n h
  have hback : ∀ k, (decimal k).map (fun b => Char.ofNat b.toNat) = Nat.toDigits 10 k := by
    intro k
    unfold decimal
    rw [List.map_map]
    refine (List.map_congr_left fun c hc => ?_).trans (List.map_id _)
    exact toUInt8_of_isDigit (Nat.isDigit_of_mem_toDigits (by decide) (by decide) hc)
  have hdigits : Nat.toDigits 10 m = Nat.toDigits 10 n := by rw [← hback m, ← hback n, h]
  rw [← Nat.ofDigitChars_ten_toDigits (n := m), hdigits, Nat.ofDigitChars_ten_toDigits]

theorem colon_not_mem_decimal (n : ℕ) : ':'.toUInt8 ∉ decimal n := by
  intro h
  obtain ⟨c, hc, hcolon⟩ := List.mem_map.mp h
  have hdigit : c.isDigit = true := Nat.isDigit_of_mem_toDigits (by decide) (by decide) hc
  have hc' : c = ':' := by
    rw [← toUInt8_of_isDigit hdigit, hcolon]
    decide
  rw [hc'] at hdigit
  exact absurd hdigit (by decide)

theorem encodeKeyValue_selfDelimiting : PrefixCode.SelfDelimiting encodeKeyValue := by
  have hnumber := PrefixCode.selfDelimiting_terminated decimal_injective colon_not_mem_decimal
  have hmarks : 'N'.toUInt8 ≠ 'S'.toUInt8 := by decide
  have hvalue := PrefixCode.selfDelimiting_option hmarks
    (PrefixCode.selfDelimiting_lengthPrefixed hnumber)
  have hcode : encodeKeyValue = fun o : Option Bytes => o.elim ['N'.toUInt8] fun text =>
      'S'.toUInt8 :: ((decimal text.length ++ [':'.toUInt8]) ++ text) := by
    funext o
    cases o with
    | none => rfl
    | some text => simp [encodeKeyValue]
  rw [hcode]
  exact hvalue

theorem clickHouse_row_keys_unambiguous :
    (∀ a b, encodeClickHouseKey a = encodeClickHouseKey b → a = b) ∧
      (∀ a b, a.length = b.length → encodeClickHouseKey a <+: encodeClickHouseKey b →
        encodeClickHouseKey a = encodeClickHouseKey b) ∧
      ∀ (columns : List Bytes) (row row' : Bytes → Option Bytes),
        (clickHouseKeyExpression columns).eval row = (clickHouseKeyExpression columns).eval row' →
          ∀ column ∈ columns, row column = row' column := by
  have hinj : Function.Injective encodeClickHouseKey := by
    refine encodeKeyValue_selfDelimiting.flatMap_injective fun value => ?_
    cases value with
    | none => exact List.cons_ne_nil _ _
    | some text => exact List.cons_ne_nil _ _
  refine ⟨hinj, fun a b hlength hprefix => ?_, fun columns row row' heq column hcolumn => ?_⟩
  · obtain ⟨rest, hrest⟩ := hprefix
    have heq : encodeClickHouseKey a ++ rest = encodeClickHouseKey b ++ [] := by
      rw [hrest, List.append_nil]
    rw [(encodeKeyValue_selfDelimiting.flatMap hlength heq).1]
  · rw [clickHouseKeyExpression_eval, clickHouseKeyExpression_eval] at heq
    exact List.map_inj_left.mp (hinj heq) column hcolumn

end RenoP.Database
