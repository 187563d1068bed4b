import RenoP.Upload.Session
import RenoP.Capacity.Bucket

/-!
# The layout of the chunks

The sizes of a session once more with every operation on `int64` checked, and the ranges that
`claimChunk` hands out.
-/

namespace RenoP.Upload

open RenoP.Capacity (checked minInt64 maxInt64)

variable {totalSize size : ℤ}

def checkedCount (totalSize size : ℤ) : Option ℤ := do
  let last ← checked (totalSize - 1)
  let full ← checked (last / size)
  checked (1 + full)

/-- `NormalizeChunkSize`, none when an operation overflows. -/
def normalizeChecked (totalSize requested : ℤ) : Option ℤ :=
  if totalSize ≤ 0 then
    if 0 < requested then
      if requested > maxChunkSize then some maxChunkSize
      else if requested < minChunkSize then some minChunkSize
      else some requested
    else some defaultChunkSize
  else if totalSize ≤ minChunkSize then some totalSize
  else
    let size := if requested ≤ 0 then suggestChunkSize totalSize else requested
    let size := if size > maxChunkSize then maxChunkSize else size
    let size := if size < minChunkSize then minChunkSize else size
    if size ≥ totalSize then some totalSize
    else do
      let n ← checkedCount totalSize size
      if n > maxPreferredChunks then
        let part ← checkedCount totalSize maxPreferredChunks
        let size := max (min part maxChunkSize) minChunkSize
        if size ≥ totalSize then some totalSize else some size
      else some size

/-- The offset and the length that `claimChunk` returns, none when an operation overflows. -/
def SessionPlan.claimRange (plan : SessionPlan) (index : ℕ) : Option (ℤ × ℤ) := do
  let offset ← checked (index * plan.chunkSize)
  let last ← checked (plan.chunkCount - 1)
  if (index : ℤ) = last then
    let expected ← checked (plan.totalSize - offset)
    some (offset, expected)
  else some (offset, plan.chunkSize)

theorem checked_of_bounds {x : ℤ} (h0 : 0 ≤ x) (h : x < 2 ^ 63) : checked x = some x := by
  unfold checked minInt64 maxInt64
  exact if_pos (by omega)

theorem checkedCount_eq (hpos : 0 < totalSize) (hmax : totalSize < 2 ^ 63) (hsize : 0 < size) :
    checkedCount totalSize size = some (1 + (totalSize - 1) / size) := by
  have hquo : 0 ≤ (totalSize - 1) / size := Int.ediv_nonneg (by omega) (by omega)
  have hle : (totalSize - 1) / size ≤ totalSize - 1 := Int.ediv_le_self size (by omega)
  unfold checkedCount
  rw [checked_of_bounds (by omega) (by omega), Option.bind_eq_bind, Option.bind_some,
    checked_of_bounds hquo (by omega), Option.bind_some, checked_of_bounds (by omega) (by omega)]

theorem normalizeChecked_eq (requested : ℤ) (hpos : 0 < totalSize) (hmax : totalSize < 2 ^ 63) :
    normalizeChecked totalSize requested = some (normalizeChunkSize totalSize requested) := by
  have hnonpos : ¬totalSize ≤ 0 := by omega
  unfold normalizeChecked normalizeChunkSize
  rw [if_neg hnonpos, if_neg hnonpos]
  by_cases hsmall : totalSize ≤ minChunkSize
  · rw [if_pos hsmall, if_pos hsmall]
  rw [if_neg hsmall, if_neg hsmall]
  dsimp only
  generalize (if requested ≤ 0 then suggestChunkSize totalSize else requested) = asked
  generalize (if asked > maxChunkSize then maxChunkSize else asked) = capped
  generalize hclamp : (if capped < minChunkSize then minChunkSize else capped) = size
  have hsize : 0 < size := by
    unfold minChunkSize at hclamp
    split_ifs at hclamp <;> omega
  rw [checkedCount_eq hpos hmax hsize]
  simp only [Option.bind_eq_bind, Option.bind_some,
    checkedCount_eq hpos hmax (show 0 < maxPreferredChunks by decide)]
  split_ifs <;> rfl

theorem ediv_count_le {most : ℤ} (hpos : 0 < totalSize) (hmost : 0 < most)
    (hsize : 1 + (totalSize - 1) / most ≤ size) : 1 + (totalSize - 1) / size ≤ most := by
  have hquo : 0 ≤ (totalSize - 1) / most := Int.ediv_nonneg (by omega) (by omega)
  have hlt : totalSize - 1 < ((totalSize - 1) / most + 1) * most :=
    Int.lt_ediv_add_one_mul_self _ hmost
  have hmul : ((totalSize - 1) / most + 1) * most ≤ size * most :=
    mul_le_mul_of_nonneg_right (by omega) (by omega)
  have hcount : (totalSize - 1) / size < most :=
    (Int.ediv_lt_iff_lt_mul (by omega)).mpr (by rw [mul_comm]; omega)
  omega

theorem chunkCount_normalize (requested : ℤ) (hpos : 0 < totalSize) :
    chunkCount totalSize (normalizeChunkSize totalSize requested) ≤ 2048 ∨
      normalizeChunkSize totalSize requested = maxChunkSize := by
  have hwhole : 1 + (totalSize - 1) / totalSize ≤ 2048 := by
    rw [Int.ediv_eq_zero_of_lt (by omega) (by omega)]
    decide
  unfold chunkCount normalizeChunkSize
  rw [if_pos hpos, if_neg (show ¬totalSize ≤ 0 by omega)]
  by_cases hsmall : totalSize ≤ minChunkSize
  · rw [if_pos hsmall]
    exact .inl hwhole
  rw [if_neg hsmall]
  dsimp only
  generalize (if requested ≤ 0 then suggestChunkSize totalSize else requested) = asked
  generalize (if asked > maxChunkSize then maxChunkSize else asked) = capped
  generalize (if capped < minChunkSize then minChunkSize else capped) = size
  split_ifs with hbig hmany hbig'
  · exact .inl hwhole
  · exact .inl hwhole
  · by_cases hmax : 1 + (totalSize - 1) / maxPreferredChunks ≤ maxChunkSize
    · left
      exact ediv_count_le hpos (by decide) (by rw [min_eq_left hmax]; exact le_max_left ..)
    · right
      rw [min_eq_right (by omega)]
      decide
  · left
    unfold maxPreferredChunks at hmany
    omega

theorem SessionPlan.expected_pos (plan : SessionPlan) (index : ℕ) (hpos : 0 < plan.totalSize) :
    0 < plan.expected index := by
  have hsize := plan.chunkSize_pos
  have hcount := plan.chunkCount_eq
  rw [if_pos hpos] at hcount
  unfold SessionPlan.expected SessionPlan.offset
  split_ifs with hlast
  · have hdiv : (index : ℤ) = (plan.totalSize - 1) / plan.chunkSize := by omega
    have hle := Int.ediv_mul_le (plan.totalSize - 1) (by omega : plan.chunkSize ≠ 0)
    rw [← hdiv] at hle
    omega
  · exact hsize

theorem SessionPlan.expected_le (plan : SessionPlan) (index : ℕ) (hpos : 0 < plan.totalSize) :
    plan.expected index ≤ plan.chunkSize := by
  have hsize := plan.chunkSize_pos
  have hcount := plan.chunkCount_eq
  rw [if_pos hpos] at hcount
  unfold SessionPlan.expected SessionPlan.offset
  split_ifs with hlast
  · have hdiv : (index : ℤ) = (plan.totalSize - 1) / plan.chunkSize := by omega
    have hlt := Int.lt_ediv_add_one_mul_self (plan.totalSize - 1) hsize
    rw [← hdiv, add_mul, one_mul] at hlt
    omega
  · exact le_refl _

theorem SessionPlan.inChunk_bounds (plan : SessionPlan) {index : ℕ} {b : ℤ}
    (hindex : index < plan.chunkCount) (h : plan.InChunk index b) :
    0 ≤ b ∧ b < plan.totalSize := by
  have hsize := plan.chunkSize_pos
  have hcount := plan.chunkCount_eq
  have hediv := SessionPlan.inChunk_ediv hindex h
  obtain ⟨hlo, hhi⟩ := h
  have hoffset : 0 ≤ plan.offset index := mul_nonneg (by omega) (by omega)
  refine ⟨by omega, ?_⟩
  unfold SessionPlan.expected at hhi
  split_ifs at hhi with hlast
  · omega
  · by_contra hge
    split_ifs at hcount
    · have hmono : (plan.totalSize - 1) / plan.chunkSize ≤ b / plan.chunkSize :=
        Int.ediv_le_ediv hsize (by omega)
      omega
    · omega

theorem SessionPlan.claimRange_eq (plan : SessionPlan) {index : ℕ} (hpos : 0 < plan.totalSize)
    (hmax : plan.totalSize < 2 ^ 63) (hindex : index < plan.chunkCount) :
    plan.claimRange index = some (plan.offset index, plan.expected index) := by
  have hsize := plan.chunkSize_pos
  have hcount := plan.chunkCount_eq
  rw [if_pos hpos] at hcount
  have hexpected := plan.expected_pos index hpos
  have hle := plan.expected_le index hpos
  obtain ⟨hoffset, hend⟩ := plan.inChunk_bounds hindex (b := plan.offset index + 0)
    ⟨by omega, by omega⟩
  have hquo : (plan.totalSize - 1) / plan.chunkSize ≤ plan.totalSize - 1 :=
    Int.ediv_le_self _ (by omega)
  have hlast : (index : ℤ) = plan.chunkCount - 1 ↔ index + 1 = plan.chunkCount := by omega
  have hmul : (index : ℤ) * plan.chunkSize = plan.offset index := rfl
  unfold claimRange
  rw [hmul, checked_of_bounds (by omega) (by omega), Option.bind_eq_bind, Option.bind_some,
    checked_of_bounds (by omega) (by omega), Option.bind_some,
    checked_of_bounds (x := plan.totalSize - plan.offset index) (by omega) (by omega)]
  simp only [hlast, SessionPlan.expected, Option.bind_some]
  split_ifs <;> rfl

theorem createSession_sizes {active : ℕ} {purpose filename owner path : String} {requested : ℤ}
    {plan : SessionPlan}
    (h : createSession active purpose filename owner totalSize requested path = .ok plan) :
    plan.totalSize = totalSize ∧ plan.chunkSize = normalizeChunkSize totalSize requested := by
  unfold createSession at h
  dsimp only at h
  repeat
    split at h
    · cases h
  cases h
  exact ⟨rfl, rfl⟩

/-- The part size is bounded, the parts tile the file, and no size overflows. -/
theorem chunk_layout {totalSize : ℤ} (requested : ℤ) (hpos : 0 < totalSize)
    (hmax : totalSize < 2 ^ 63) :
    1 ≤ normalizeChunkSize totalSize requested ∧
    normalizeChunkSize totalSize requested ≤ min totalSize maxChunkSize ∧
    normalizeChecked totalSize requested = some (normalizeChunkSize totalSize requested) ∧
    (chunkCount totalSize (normalizeChunkSize totalSize requested) ≤ 2048 ∨
      normalizeChunkSize totalSize requested = maxChunkSize) ∧
    checkedCount totalSize (normalizeChunkSize totalSize requested) =
      some (chunkCount totalSize (normalizeChunkSize totalSize requested)) ∧
    (∀ (active : ℕ) (purpose filename owner path : String) (plan : SessionPlan),
      createSession active purpose filename owner totalSize requested path = .ok plan →
        plan.totalSize = totalSize ∧ plan.chunkSize = normalizeChunkSize totalSize requested) ∧
    ∀ plan : SessionPlan, plan.totalSize = totalSize →
      plan.chunkSize = normalizeChunkSize totalSize requested →
      (∀ i, i < plan.chunkCount → plan.claimRange i = some (plan.offset i, plan.expected i) ∧
        0 < plan.expected i ∧ plan.expected i ≤ plan.chunkSize) ∧
      (∀ i j b, i < plan.chunkCount → j < plan.chunkCount → plan.InChunk i b →
        plan.InChunk j b → i = j) ∧
      ∀ b, (∃ i, i < plan.chunkCount ∧ plan.InChunk i b) ↔ 0 ≤ b ∧ b < totalSize := by
  have hsize := normalizeChunkSize_pos totalSize requested
  refine ⟨by omega, ?_, normalizeChecked_eq requested hpos hmax,
    chunkCount_normalize requested hpos, ?_, fun _ _ _ _ _ _ h => createSession_sizes h, ?_⟩
  · exact le_min_iff.mpr ((normalizeChunkSize_bounds totalSize requested).2 hpos)
  · rw [checkedCount_eq hpos hmax hsize, chunkCount, if_pos hpos]
  · rintro plan rfl -
    refine ⟨?_, fun i j b hi hj => SessionPlan.inChunk_unique hi hj, ?_⟩
    · intro i hi
      exact ⟨plan.claimRange_eq hpos hmax hi, plan.expected_pos i hpos, plan.expected_le i hpos⟩
    · intro b
      constructor
      · rintro ⟨i, hi, hb⟩
        exact plan.inChunk_bounds hi hb
      · rintro ⟨h0, hb⟩
        exact plan.covers h0 hb

theorem chunk_layout_five : normalizeChunkSize 20000000 0 ≤ min 20000000 maxChunkSize ∧
    checkedCount 20000000 (normalizeChunkSize 20000000 0) = some 5 := by
  have hlayout := @chunk_layout 20000000 0 (by decide) (by decide)
  have hcount : chunkCount 20000000 (normalizeChunkSize 20000000 0) = 5 := by decide
  rw [hcount] at hlayout
  exact ⟨hlayout.2.1, hlayout.2.2.2.2.1⟩

end RenoP.Upload
