import Mathlib.Data.List.Induction
import Mathlib.Data.List.Lex
import Mathlib.Tactic.Ring
import Mathlib.Tactic.NormNum

/-!
# Numerals of a fixed width

A numeral is a list of digits with the most significant one first.
-/

namespace Digits

def value (b : ℕ) (l : List ℕ) : ℕ := l.foldl (fun n d => n * b + d) 0

/-- The last `n` digits of a number. -/
def digits (b : ℕ) : ℕ → ℕ → List ℕ
  | 0, _ => []
  | n + 1, v => digits b n (v / b) ++ [v % b]

variable {b : ℕ}

theorem foldl_value (l : List ℕ) (n : ℕ) :
    l.foldl (fun n d => n * b + d) n = n * b ^ l.length + value b l := by
  unfold value
  induction l generalizing n with
  | nil => simp
  | cons d l ih =>
    simp only [List.foldl_cons, List.length_cons]
    rw [ih, ih (0 * b + d)]
    ring

@[simp] theorem value_nil : value b [] = 0 := rfl

theorem value_cons (d : ℕ) (l : List ℕ) : value b (d :: l) = d * b ^ l.length + value b l := by
  unfold value
  rw [List.foldl_cons, foldl_value]
  simp [value]

theorem value_append (l l' : List ℕ) :
    value b (l ++ l') = value b l * b ^ l'.length + value b l' := by
  unfold value
  rw [List.foldl_append, foldl_value]
  rfl

theorem value_concat (l : List ℕ) (d : ℕ) : value b (l ++ [d]) = value b l * b + d := by
  rw [value_append, value_cons]
  simp

theorem value_lt {l : List ℕ} (h : ∀ d ∈ l, d < b) : value b l < b ^ l.length := by
  induction l with
  | nil => simp
  | cons d l ih =>
    have hd := h d (List.mem_cons_self ..)
    have hrest := ih fun e he => h e (List.mem_cons_of_mem d he)
    rw [value_cons, List.length_cons, pow_succ]
    have hle : (d + 1) * b ^ l.length ≤ b * b ^ l.length := Nat.mul_le_mul_right _ hd
    rw [Nat.add_mul, Nat.one_mul] at hle
    rw [Nat.mul_comm (b ^ l.length) b]
    omega

@[simp] theorem length_digits (n v : ℕ) : (digits b n v).length = n := by
  induction n generalizing v with
  | zero => rfl
  | succ n ih => simp [digits, ih]

theorem digits_lt (hb : 0 < b) {n v d : ℕ} (h : d ∈ digits b n v) : d < b := by
  induction n generalizing v with
  | zero => cases h
  | succ n ih =>
    rw [digits, List.mem_append, List.mem_singleton] at h
    rcases h with h | rfl
    · exact ih h
    · exact Nat.mod_lt _ hb

theorem value_digits (n v : ℕ) : value b (digits b n v) = v % b ^ n := by
  induction n generalizing v with
  | zero => simp [digits, Nat.mod_one]
  | succ n ih => rw [digits, value_concat, ih, pow_succ', Nat.mod_mul, Nat.mul_comm, Nat.add_comm]

theorem digits_value {l : List ℕ} (h : ∀ d ∈ l, d < b) : digits b l.length (value b l) = l := by
  induction l using List.reverseRecOn with
  | nil => rfl
  | append_singleton l d ih =>
    have hd : d < b := h d (by simp)
    rw [List.length_append, List.length_singleton, digits, value_concat]
    have hdiv : (value b l * b + d) / b = value b l := by
      rw [Nat.mul_comm, Nat.mul_add_div (by omega), Nat.div_eq_of_lt hd, Nat.add_zero]
    have hmod : (value b l * b + d) % b = d := by
      rw [Nat.mul_comm, Nat.mul_add_mod, Nat.mod_eq_of_lt hd]
    rw [hdiv, hmod, ih fun e he => h e (List.mem_append_left _ he)]

theorem lt_iff_value_lt {l l' : List ℕ} (hl : ∀ d ∈ l, d < b) (hl' : ∀ d ∈ l', d < b)
    (h : l.length = l'.length) : l < l' ↔ value b l < value b l' := by
  induction l generalizing l' with
  | nil =>
    rw [List.length_nil, eq_comm, List.length_eq_zero_iff] at h
    simp [h]
  | cons d l ih =>
    cases l' with
    | nil => cases h
    | cons d' l' =>
      rw [List.length_cons, List.length_cons, Nat.add_right_cancel_iff] at h
      have hrest := value_lt fun e he => hl e (List.mem_cons_of_mem d he)
      have hrest' := value_lt fun e he => hl' e (List.mem_cons_of_mem d' he)
      rw [List.cons_lt_cons_iff, ih (fun e he => hl e (List.mem_cons_of_mem d he))
        (fun e he => hl' e (List.mem_cons_of_mem d' he)) h, value_cons, value_cons, h]
      rw [h] at hrest
      generalize b ^ l'.length = p at *
      constructor
      · rintro (hlt | ⟨rfl, hlt⟩)
        · have hle : (d + 1) * p ≤ d' * p := Nat.mul_le_mul_right _ hlt
          rw [Nat.add_mul, Nat.one_mul] at hle
          omega
        · omega
      · intro hlt
        rcases Nat.lt_trichotomy d d' with hdd | rfl | hdd
        · exact .inl hdd
        · exact .inr ⟨rfl, by omega⟩
        · have hle : (d' + 1) * p ≤ d * p := Nat.mul_le_mul_right _ hdd
          rw [Nat.add_mul, Nat.one_mul] at hle
          omega

end Digits

/-!
## Decimal numbers of 64 bits (ParseUint of the Go package strconv)

`ParseUint` with base 10 and 64 bits, on the bytes of a text. It reads the texts of digits whose
value fits.
-/

namespace ParseUint

abbrev Bytes := List UInt8

def isDigit (c : UInt8) : Bool := decide (0x30 ≤ c) && decide (c ≤ 0x39)

def cutoff : UInt64 := 1844674407370955162

def parseLoop : Bytes → UInt64 → Option UInt64
  | [], n => some n
  | c :: s, n =>
    if isDigit c = false then none
    else if cutoff ≤ n then none
    else
      let n1 := n * 10 + (c - 0x30).toUInt64
      if n1 < n * 10 then none else parseLoop s n1

def parseUint (s : Bytes) : Option UInt64 := if s = [] then none else parseLoop s 0

def decimal (s : Bytes) : ℕ := Digits.value 10 (s.map fun c => c.toNat - 0x30)

theorem isDigit_iff {c : UInt8} : isDigit c = true ↔ 0x30 ≤ c.toNat ∧ c.toNat ≤ 0x39 := by
  simp [isDigit, UInt8.le_iff_toNat_le]

theorem decimal_cons (c : UInt8) (s : Bytes) :
    decimal (c :: s) = (c.toNat - 0x30) * 10 ^ s.length + decimal s := by
  unfold decimal
  rw [List.map_cons, Digits.value_cons, List.length_map]

theorem digit_toNat {c : UInt8} (h : isDigit c = true) :
    (c - 0x30).toUInt64.toNat = c.toNat - 0x30 ∧ c.toNat - 0x30 < 10 := by
  obtain ⟨hlo, hhi⟩ := isDigit_iff.mp h
  have hsub : (c - 0x30).toNat = c.toNat - 0x30 :=
    UInt8.toNat_sub_of_le c 0x30 (UInt8.le_iff_toNat_le.mpr hlo)
  rw [UInt8.toNat_toUInt64, hsub]
  omega

theorem parseLoop_cons {c : UInt8} (h : isDigit c = true) (s : Bytes) (n : UInt64) :
    (n.toNat * 10 + (c.toNat - 0x30) < 2 ^ 64 → ∃ n1 : UInt64,
      n1.toNat = n.toNat * 10 + (c.toNat - 0x30) ∧ parseLoop (c :: s) n = parseLoop s n1) ∧
    (2 ^ 64 ≤ n.toNat * 10 + (c.toNat - 0x30) → parseLoop (c :: s) n = none) := by
  obtain ⟨hdigit, hten⟩ := digit_toNat h
  have hn := n.toNat_lt
  have hcutoff : cutoff.toNat = 1844674407370955162 := rfl
  have hmul : (n * 10).toNat = n.toNat * 10 % 2 ^ 64 := UInt64.toNat_mul n 10
  have hadd : (n * 10 + (c - 0x30).toUInt64).toNat =
      (n.toNat * 10 % 2 ^ 64 + (c.toNat - 0x30)) % 2 ^ 64 := by
    rw [UInt64.toNat_add, hmul, hdigit]
  rw [parseLoop, if_neg (by simp [h])]
  simp only [UInt64.le_iff_toNat_le, UInt64.lt_iff_toNat_lt, hcutoff, hadd, hmul]
  constructor
  · intro hfits
    refine ⟨n * 10 + (c - 0x30).toUInt64, ?_, ?_⟩
    · rw [hadd]
      omega
    · rw [if_neg (by omega), if_neg (by omega)]
  · intro hover
    split_ifs with hcut hwrap
    · rfl
    · rfl
    · omega

theorem parseLoop_eq_some {s : Bytes} {n m : UInt64} :
    parseLoop s n = some m ↔
      (∀ c ∈ s, isDigit c = true) ∧ n.toNat * 10 ^ s.length + decimal s = m.toNat := by
  induction s generalizing n with
  | nil => simp [parseLoop, decimal, UInt64.toNat_inj]
  | cons c s ih =>
    cases hc : isDigit c with
    | false => simp [parseLoop, hc]
    | true =>
      have hall : (∀ d ∈ c :: s, isDigit d = true) ↔ ∀ d ∈ s, isDigit d = true := by simp [hc]
      have hsum : n.toNat * 10 ^ (c :: s).length + decimal (c :: s) =
          (n.toNat * 10 + (c.toNat - 0x30)) * 10 ^ s.length + decimal s := by
        rw [decimal_cons, List.length_cons, pow_succ]
        ring
      obtain ⟨hstep, hstop⟩ := parseLoop_cons hc s n
      rw [hall, hsum]
      by_cases hfits : n.toNat * 10 + (c.toNat - 0x30) < 2 ^ 64
      · obtain ⟨n1, hn1, hloop⟩ := hstep hfits
        rw [hloop, ih, hn1]
      · rw [hstop (by omega)]
        have hgrows : n.toNat * 10 + (c.toNat - 0x30) ≤
            (n.toNat * 10 + (c.toNat - 0x30)) * 10 ^ s.length :=
          Nat.le_mul_of_pos_right _ (Nat.pow_pos (by decide))
        have hm := m.toNat_lt
        refine iff_of_false nofun ?_
        rintro ⟨-, hvalue⟩
        omega

theorem parseUint_eq_some {s : Bytes} {n : UInt64} :
    parseUint s = some n ↔
      s ≠ [] ∧ (∀ c ∈ s, isDigit c = true) ∧ decimal s = n.toNat := by
  unfold parseUint
  by_cases hs : s = []
  · simp [hs]
  · rw [if_neg hs, parseLoop_eq_some]
    have hzero : (0 : UInt64).toNat = 0 := rfl
    simp [hs, hzero]

theorem parseUint_of_digits {s : Bytes} (hne : s ≠ []) (hs : ∀ c ∈ s, isDigit c = true) :
    (decimal s < 2 ^ 64 → ∃ n, parseUint s = some n ∧ n.toNat = decimal s) ∧
      (2 ^ 64 ≤ decimal s → parseUint s = none) := by
  constructor
  · intro hfits
    have hvalue : (UInt64.ofNat (decimal s)).toNat = decimal s := UInt64.toNat_ofNat_of_lt' hfits
    exact ⟨_, parseUint_eq_some.mpr ⟨hne, hs, hvalue.symm⟩, hvalue⟩
  · intro hover
    rw [Option.eq_none_iff_forall_ne_some]
    intro n hn
    have hvalue := (parseUint_eq_some.mp hn).2.2
    have hlt := n.toNat_lt
    omega

end ParseUint
