import RenoP.Lib.Comparison

/-!
# Versions in order

`CompareVersions` of `internal/utils/version.go` on the bytes of two versions. The loop walks both
strings a fragment at a time; a version that has ended goes on with fragments `0`.
-/

namespace RenoP.Maven

open Comparison (threeWay padded)

abbrev Bytes := List UInt8

def isSep (c : UInt8) : Bool := c == 0x2D || c == 0x2E || c == 0x5F

def isDigits (frag : Bytes) : Bool :=
  frag != [] && frag.all fun c => decide (0x30 ≤ c) && decide (c ≤ 0x39)

def stripped (frag : Bytes) : Bytes := frag.dropWhile (· == 0x30)

/-- `if aFrag != bFrag`, with 0 where the loop goes on -/
def compareText (a b : Bytes) : ℤ := if a ≠ b then if a < b then -1 else 1 else 0

def compareFragments (a b : Bytes) : ℤ :=
  if isDigits a && isDigits b then
    if (stripped a).length ≠ (stripped b).length then
      if (stripped a).length < (stripped b).length then -1 else 1
    else if stripped a ≠ stripped b then
      if stripped a < stripped b then -1 else 1
    else compareText a b
  else if isDigits a || isDigits b then
    if isDigits a then 1 else -1
  else compareText a b

def compareCounts (aPartsCount bPartsCount : ℕ) : ℤ :=
  if aPartsCount < bPartsCount then -1 else if bPartsCount < aPartsCount then 1 else 0

/-- The loop of `CompareVersions` on what is left of both strings; each turn takes a byte of one
of them at least. -/
def compareLoop : ℕ → Bytes → Bytes → ℕ → ℕ → ℤ
  | 0, _, _, m, n => compareCounts m n
  | fuel + 1, a, b, m, n =>
    let a := a.dropWhile isSep
    let b := b.dropWhile isSep
    if a = [] ∧ b = [] then compareCounts m n
    else
      let aFrag := if a = [] then [0x30] else a.takeWhile (!isSep ·)
      let bFrag := if b = [] then [0x30] else b.takeWhile (!isSep ·)
      let m := if a = [] then m else m + 1
      let n := if b = [] then n else n + 1
      let result := compareFragments aFrag bFrag
      if result ≠ 0 then result
      else compareLoop fuel (a.dropWhile (!isSep ·)) (b.dropWhile (!isSep ·)) m n

def compareVersions (a b : Bytes) : ℤ := compareLoop (a.length + b.length) a b 0 0

def fragments (version : Bytes) : List Bytes := (version.splitOnP isSep).filter (· ≠ [])

def fragmentKey (frag : Bytes) : Bool ×ₗ ℕ ×ₗ List ℕ ×ₗ List ℕ :=
  if isDigits frag then
    toLex (true, toLex ((stripped frag).length,
      toLex ((stripped frag).map UInt8.toNat, frag.map UInt8.toNat)))
  else toLex (false, toLex (0, toLex ([], frag.map UInt8.toNat)))

theorem bytes_lt (a b : Bytes) : a < b ↔ a.map UInt8.toNat < b.map UInt8.toNat :=
  Comparison.lt_iff_map_lt (fun _ _ _ _ => UInt8.lt_iff_toNat_lt)
    (fun _ _ _ _ => UInt8.toNat_inj.mp)

theorem bytes_inj {a b : Bytes} : a.map UInt8.toNat = b.map UInt8.toNat ↔ a = b :=
  List.map_inj_right fun _ _ => UInt8.toNat_inj.mp

theorem bytes_first (a b : Bytes) (r : ℤ) :
    (if a ≠ b then if a < b then -1 else 1 else r) =
      if threeWay (a.map UInt8.toNat) (b.map UInt8.toNat) = 0 then r
      else threeWay (a.map UInt8.toNat) (b.map UInt8.toNat) := by
  rw [← Comparison.threeWay_first]
  simp only [ne_eq, bytes_inj, bytes_lt]
  congr

theorem compareText_eq (a b : Bytes) :
    compareText a b = threeWay (a.map UInt8.toNat) (b.map UInt8.toNat) := by
  unfold compareText
  rw [bytes_first]
  split_ifs with h
  · exact h.symm
  · rfl

theorem compareFragments_eq (a b : Bytes) :
    compareFragments a b = threeWay (fragmentKey a) (fragmentKey b) := by
  have hrank : threeWay true false = 1 ∧ threeWay false true = -1 := by decide
  unfold compareFragments fragmentKey
  by_cases ha : isDigits a = true
  · by_cases hb : isDigits b = true
    · simp only [ha, hb, Bool.and_true, if_true, Comparison.threeWay_toLex,
        Comparison.threeWay_self, Comparison.threeWay_first, bytes_first, compareText_eq]
    · simp [ha, hb, Comparison.threeWay_toLex, hrank]
  · by_cases hb : isDigits b = true
    · simp [ha, hb, Comparison.threeWay_toLex, hrank]
    · simp [ha, hb, Comparison.threeWay_toLex, compareText_eq]

theorem fragmentKey_inj {a b : Bytes} (h : fragmentKey a = fragmentKey b) : a = b := by
  have hraw : ∀ frag, (ofLex (ofLex (ofLex (fragmentKey frag)).2).2).2 = frag.map UInt8.toNat := by
    intro frag
    unfold fragmentKey
    split_ifs <;> rfl
  rw [← bytes_inj, ← hraw a, ← hraw b, h]

theorem fragments_nil : fragments [] = [] := by simp [fragments]

theorem fragments_sep {c : UInt8} (h : isSep c = true) (s : Bytes) :
    fragments (c :: s) = fragments s := by
  unfold fragments
  rw [List.splitOnP_cons_eq_if_modifyHead, if_pos h]
  simp

theorem fragments_dropWhile (s : Bytes) : fragments (s.dropWhile isSep) = fragments s := by
  induction s with
  | nil => rfl
  | cons c s ih =>
    rw [List.dropWhile_cons]
    split_ifs with hc
    · rw [ih, fragments_sep hc]
    · rfl

theorem splitOnP_first (s : Bytes) : s.splitOnP isSep = s.takeWhile (!isSep ·) ::
    match s.dropWhile (!isSep ·) with
    | [] => []
    | _ :: rest => rest.splitOnP isSep := by
  induction s with
  | nil => rfl
  | cons c s ih =>
    rw [List.splitOnP_cons_eq_if_modifyHead, List.takeWhile_cons, List.dropWhile_cons]
    by_cases hc : isSep c = true
    · simp [hc]
    · simp [hc, ih]

theorem dropWhile_head {s : Bytes} {c : UInt8} {rest : Bytes}
    (h : s.dropWhile (!isSep ·) = c :: rest) : isSep c = true := by
  have hhead := List.head?_dropWhile_not (!isSep ·) s
  rw [h] at hhead
  simpa using hhead

theorem fragments_first {s : Bytes} (h : s.takeWhile (!isSep ·) ≠ []) :
    fragments s = s.takeWhile (!isSep ·) :: fragments (s.dropWhile (!isSep ·)) := by
  have hsplit := splitOnP_first s
  cases hrest : s.dropWhile (!isSep ·) with
  | nil =>
    rw [hrest] at hsplit
    rw [fragments_nil, fragments, hsplit]
    simp [h]
  | cons c rest =>
    rw [hrest] at hsplit
    rw [fragments_sep (dropWhile_head hrest), fragments, hsplit]
    simp [h, fragments]

def zeroKey : Bool ×ₗ ℕ ×ₗ List ℕ ×ₗ List ℕ := fragmentKey [0x30]

/-- Versions are ordered by their fragments, those that are missing taken as `0`, and then by
their numbers of fragments. -/
def versionKey (frags : List Bytes) (count : ℕ) :
    Lex (ℕ → Bool ×ₗ ℕ ×ₗ List ℕ ×ₗ List ℕ) ×ₗ ℕ :=
  toLex (padded zeroKey (frags.map fragmentKey), count)

theorem compareCounts_eq (m n : ℕ) : compareCounts m n = threeWay m n := rfl

theorem fragments_step (s : Bytes) :
    ((fragments s).map fragmentKey).headD zeroKey = fragmentKey
        (if s.dropWhile isSep = [] then [0x30] else (s.dropWhile isSep).takeWhile (!isSep ·)) ∧
      (fragments s).tail = fragments ((s.dropWhile isSep).dropWhile (!isSep ·)) ∧
      (fragments s).length = (if s.dropWhile isSep = [] then 0 else 1) +
        (fragments ((s.dropWhile isSep).dropWhile (!isSep ·))).length ∧
      ((s.dropWhile isSep).dropWhile (!isSep ·)).length +
        (if s.dropWhile isSep = [] then 0 else 1) ≤ s.length := by
  have hdrop := fragments_dropWhile s
  have hle := (List.dropWhile_sublist isSep (l := s)).length_le
  have hhead := List.head?_dropWhile_not isSep s
  rw [← hdrop]
  generalize s.dropWhile isSep = t at *
  cases t with
  | nil =>
    rw [fragments_nil]
    exact ⟨rfl, fragments_nil.symm, rfl, Nat.zero_le _⟩
  | cons c t =>
    have hc : isSep c = false := by simpa using hhead
    have htake : (c :: t).takeWhile (!isSep ·) ≠ [] := by
      rw [List.takeWhile_cons, hc]
      simp
    have hlength : 1 + ((c :: t).dropWhile (!isSep ·)).length ≤ (c :: t).length := by
      have hsplit := congrArg List.length (List.takeWhile_append_dropWhile (p := (!isSep ·))
        (l := c :: t))
      have hpos := List.length_pos_iff.mpr htake
      rw [List.length_append] at hsplit
      omega
    rw [fragments_first htake, if_neg (List.cons_ne_nil c t), if_neg (List.cons_ne_nil c t)]
    refine ⟨rfl, rfl, ?_, by omega⟩
    rw [List.length_cons, Nat.add_comm]

theorem threeWay_versionKey (f g : List Bytes) (m n : ℕ) :
    threeWay (versionKey f m) (versionKey g n) =
      if threeWay ((f.map fragmentKey).headD zeroKey) ((g.map fragmentKey).headD zeroKey) = 0 then
        threeWay (versionKey f.tail m) (versionKey g.tail n)
      else threeWay ((f.map fragmentKey).headD zeroKey) ((g.map fragmentKey).headD zeroKey) := by
  unfold versionKey
  rw [Comparison.threeWay_toLex, Comparison.threeWay_toLex, Comparison.threeWay_padded,
    List.map_tail, List.map_tail]
  split_ifs <;> rfl

theorem threeWay_ended (m n : ℕ) :
    threeWay (versionKey [] m) (versionKey [] n) = compareCounts m n := by
  rw [versionKey, versionKey, Comparison.threeWay_toLex, Comparison.threeWay_self, if_pos rfl,
    compareCounts_eq]

theorem compareLoop_eq {fuel : ℕ} {a b : Bytes} (h : a.length + b.length ≤ fuel) (m n : ℕ) :
    compareLoop fuel a b m n = threeWay (versionKey (fragments a) (m + (fragments a).length))
      (versionKey (fragments b) (n + (fragments b).length)) := by
  induction fuel generalizing a b m n with
  | zero =>
    have ha : a = [] := List.length_eq_zero_iff.mp (by omega)
    have hb : b = [] := List.length_eq_zero_iff.mp (by omega)
    subst ha
    subst hb
    rw [fragments_nil]
    exact (threeWay_ended m n).symm
  | succ fuel ih =>
    obtain ⟨hheadA, htailA, hcountA, hlengthA⟩ := fragments_step a
    obtain ⟨hheadB, htailB, hcountB, hlengthB⟩ := fragments_step b
    unfold compareLoop
    dsimp only
    by_cases hboth : a.dropWhile isSep = [] ∧ b.dropWhile isSep = []
    · rw [if_pos hboth, ← fragments_dropWhile a, ← fragments_dropWhile b, hboth.1, hboth.2,
        fragments_nil]
      exact (threeWay_ended m n).symm
    · rw [if_neg hboth, threeWay_versionKey, hheadA, hheadB, ← compareFragments_eq, htailA, htailB]
      generalize compareFragments _ _ = result
      by_cases hresult : result = 0
      · have hcountA' : (if a.dropWhile isSep = [] then m else m + 1) +
            (fragments ((a.dropWhile isSep).dropWhile (!isSep ·))).length =
            m + (fragments a).length := by
          rw [hcountA]
          split_ifs <;> omega
        have hcountB' : (if b.dropWhile isSep = [] then n else n + 1) +
            (fragments ((b.dropWhile isSep).dropWhile (!isSep ·))).length =
            n + (fragments b).length := by
          rw [hcountB]
          split_ifs <;> omega
        have hfuel : ((a.dropWhile isSep).dropWhile (!isSep ·)).length +
            ((b.dropWhile isSep).dropWhile (!isSep ·)).length ≤ fuel := by
          split_ifs at hlengthA hlengthB with ha hb
          · exact absurd ⟨ha, hb⟩ hboth
          · omega
          · omega
          · omega
        rw [if_neg (not_not.mpr hresult), if_pos hresult, ih hfuel, hcountA', hcountB']
      · rw [if_pos hresult, if_neg hresult]

theorem compareVersions_eq (a b : Bytes) :
    compareVersions a b = threeWay (versionKey (fragments a) (fragments a).length)
      (versionKey (fragments b) (fragments b).length) := by
  unfold compareVersions
  rw [compareLoop_eq (Nat.le_refl _), Nat.zero_add, Nat.zero_add]

theorem versionKey_inj {f g : List Bytes} (h : versionKey f f.length = versionKey g g.length) :
    f = g := by
  obtain ⟨hpadded, hlength⟩ := Prod.mk.inj (toLex_inj.mp h)
  have hkeys := Comparison.padded_inj hpadded (by rw [List.length_map, List.length_map, hlength])
  exact List.map_injective_iff.mpr (fun _ _ => fragmentKey_inj) hkeys

theorem compareVersions_neg (a b : Bytes) : compareVersions a b = -compareVersions b a := by
  rw [compareVersions_eq, compareVersions_eq]
  exact Comparison.threeWay_neg _ _

theorem compareVersions_trans {a b c : Bytes} (hab : compareVersions a b ≤ 0)
    (hbc : compareVersions b c ≤ 0) : compareVersions a c ≤ 0 := by
  rw [compareVersions_eq, Comparison.threeWay_nonpos] at *
  exact le_trans hab hbc

theorem compareVersions_eq_zero {a b : Bytes} :
    compareVersions a b = 0 ↔ fragments a = fragments b := by
  rw [compareVersions_eq, Comparison.threeWay_eq_zero]
  constructor
  · exact versionKey_inj
  · intro h
    rw [h]

/-- `CompareVersions` is a total preorder, and versions that are equal in it have the same
fragments. -/
theorem compareVersions_order :
    (∀ a b, compareVersions a b = -compareVersions b a) ∧
    (∀ a b c, compareVersions a b ≤ 0 → compareVersions b c ≤ 0 → compareVersions a c ≤ 0) ∧
    ∀ a b, compareVersions a b = 0 ↔ fragments a = fragments b :=
  ⟨compareVersions_neg, fun _ _ _ => compareVersions_trans, fun _ _ => compareVersions_eq_zero⟩

end RenoP.Maven
