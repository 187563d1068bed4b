import RenoP.Index.FileIndex

/-!
# Reference counts of the content records

`ContentExact` says that both counter maps count the stored records and that no referenced digest is
garbage.
-/

namespace RenoP.Index.FileIndex

/-- The record under `key` counts for `digestKey`. -/
def refersTo (digestKey : Key) (key : Key) (value : ContentInfo) : Bool :=
  isReference value && decide (contentDigestKey key value.digest = digestKey)

def verifies (digestKey : Key) (key : Key) (value : ContentInfo) : Bool :=
  refersTo digestKey key value && value.verified

structure ContentExact (idx : FileIndex) : Prop where
  refs : ∀ d, idx.contentRefs.counter d = idx.contents.count (refersTo d)
  verified : ∀ d, idx.contentVerifiedRefs.counter d = idx.contents.count (verifies d)
  collectable : ∀ d, 0 < idx.contentRefs.counter d → idx.contentGarbage.load d = none

theorem newFileIndex_contentExact : ContentExact newFileIndex where
  refs _ := rfl
  verified _ := rfl
  collectable _ _ := rfl

theorem refersTo_eq {key : Key} {value : ContentInfo} (h : isReference value = true) (d : Key) :
    (if refersTo d key value then (1 : ℤ) else 0) =
      if d = contentDigestKey key value.digest then 1 else 0 := by
  unfold refersTo
  by_cases hd : contentDigestKey key value.digest = d
  · simp [h, hd]
  · simp [hd, Ne.symm hd]

theorem verifies_eq {key : Key} {value : ContentInfo} (h : isReference value = true) (d : Key) :
    (if verifies d key value then (1 : ℤ) else 0) =
      if value.verified then (if d = contentDigestKey key value.digest then 1 else 0) else 0 := by
  unfold verifies
  rw [← refersTo_eq h]
  cases value.verified <;> simp

theorem refersTo_of_not_reference {value : ContentInfo} (h : isReference value = false) (d key : Key) :
    refersTo d key value = false ∧ verifies d key value = false := by
  unfold verifies refersTo
  simp [h]

theorem dropContentReference_counters {idx : FileIndex} {key : Key} {value : ContentInfo}
    (now : ℤ) (hrefs : ∀ d, refersTo d key value = true → 1 ≤ idx.contentRefs.counter d)
    (hver : ∀ d, verifies d key value = true → 1 ≤ idx.contentVerifiedRefs.counter d) (d : Key) :
    let out := dropContentReference idx key value now
    out.contents = idx.contents ∧
    out.contentRefs.counter d =
      idx.contentRefs.counter d - (if refersTo d key value then 1 else 0) ∧
    out.contentVerifiedRefs.counter d =
      idx.contentVerifiedRefs.counter d - (if verifies d key value then 1 else 0) := by
  dsimp only
  unfold dropContentReference
  cases hr : isReference value with
  | false =>
    obtain ⟨h1, h2⟩ := refersTo_of_not_reference hr d key
    simp [h1, h2]
  | true =>
    have hone := hrefs (contentDigestKey key value.digest) (by simp [refersTo, hr])
    have hrefs' := GoMap.counter_decr idx.contentRefs _ d hone
    have hver' : GoMap.counter (if value.verified
          then idx.contentVerifiedRefs.decr (contentDigestKey key value.digest)
          else idx.contentVerifiedRefs) d =
        idx.contentVerifiedRefs.counter d -
          if value.verified then (if d = contentDigestKey key value.digest then 1 else 0) else 0 := by
      cases hv : value.verified with
      | false => simp
      | true =>
        have hvone := hver (contentDigestKey key value.digest) (by simp [verifies, refersTo, hr, hv])
        simpa using GoMap.counter_decr idx.contentVerifiedRefs _ d hvone
    rw [refersTo_eq hr, verifies_eq hr]
    simp only [Bool.not_true, Bool.false_eq_true, if_false]
    by_cases hz : GoMap.counter (idx.contentRefs.decr (contentDigestKey key value.digest))
        (contentDigestKey key value.digest) ≤ 0
    · rw [if_pos hz]
      exact ⟨rfl, hrefs', hver'⟩
    · rw [if_neg hz]
      exact ⟨rfl, hrefs', hver'⟩

theorem dropContentReference_garbage (idx : FileIndex) (key : Key) (value : ContentInfo)
    (now : ℤ) (d : Key) :
    let out := dropContentReference idx key value now
    out.contentGarbage.load d =
      if refersTo d key value ∧ out.contentRefs.counter d ≤ 0 then some now
      else idx.contentGarbage.load d := by
  dsimp only
  unfold dropContentReference
  cases hr : isReference value with
  | false =>
    obtain ⟨h1, -⟩ := refersTo_of_not_reference hr d key
    simp [h1]
  | true =>
    have hself : refersTo (contentDigestKey key value.digest) key value = true := by
      simp [refersTo, hr]
    have hkey (h : refersTo d key value = true) : contentDigestKey key value.digest = d := by
      simpa [refersTo, hr] using h
    simp only [Bool.not_true, Bool.false_eq_true, if_false]
    generalize (if value.verified
      then idx.contentVerifiedRefs.decr (contentDigestKey key value.digest)
      else idx.contentVerifiedRefs) = verifiedRefs
    by_cases hz : GoMap.counter (idx.contentRefs.decr (contentDigestKey key value.digest))
        (contentDigestKey key value.digest) ≤ 0
    · rw [if_pos hz]
      by_cases hd : refersTo d key value = true
      · rw [← hkey hd, if_pos ⟨hself, hz⟩]
        exact GoMap.load_store_self _ _ _
      · rw [if_neg fun h => hd h.1]
        refine GoMap.load_store_ne _ _ ?_
        rintro rfl
        exact hd hself
    · rw [if_neg hz, if_neg]
      rintro ⟨hd, hc⟩
      rw [← hkey hd] at hc
      exact hz hc

theorem addContent_counters (idx : FileIndex) (key : Key) (value : ContentInfo) (d : Key) :
    (addContent idx key value).contents = idx.contents.store key value ∧
    (addContent idx key value).contentRefs.counter d =
      idx.contentRefs.counter d + (if refersTo d key value then 1 else 0) ∧
    (addContent idx key value).contentVerifiedRefs.counter d =
      idx.contentVerifiedRefs.counter d + (if verifies d key value then 1 else 0) := by
  unfold addContent
  cases hr : isReference value with
  | false =>
    obtain ⟨h1, h2⟩ := refersTo_of_not_reference hr d key
    simp [h1, h2]
  | true =>
    rw [refersTo_eq hr, verifies_eq hr]
    simp only [if_true, GoMap.counter_incr]
    refine ⟨trivial, trivial, ?_⟩
    cases hv : value.verified with
    | false => simp
    | true => simp [GoMap.counter_incr]

theorem addContent_garbage (idx : FileIndex) (key : Key) (value : ContentInfo) (d : Key) :
    (addContent idx key value).contentGarbage.load d =
      if refersTo d key value then none else idx.contentGarbage.load d := by
  unfold addContent
  cases hr : isReference value with
  | false =>
    obtain ⟨h1, -⟩ := refersTo_of_not_reference hr d key
    simp [h1]
  | true =>
    simp only [if_true, GoMap.load_delete]
    by_cases hd : contentDigestKey key value.digest = d
    · simp [refersTo, hr, hd]
    · simp [refersTo, hd, Ne.symm hd]

theorem ContentExact.counted {idx : FileIndex} (h : ContentExact idx) {key : Key}
    {value : ContentInfo} (hl : idx.contents.load key = some value) :
    (∀ d, refersTo d key value = true → 1 ≤ idx.contentRefs.counter d) ∧
      ∀ d, verifies d key value = true → 1 ≤ idx.contentVerifiedRefs.counter d := by
  constructor
  · intro d hd
    have := GoMap.count_pos hl hd
    rw [h.refs]
    omega
  · intro d hd
    have := GoMap.count_pos hl hd
    rw [h.verified]
    omega

theorem ContentExact.removeContent {idx : FileIndex} (h : ContentExact idx) (key : Key) (now : ℤ) :
    ContentExact (idx.removeContent key now) := by
  unfold FileIndex.removeContent
  cases hl : idx.contents.load key with
  | none => exact h
  | some value =>
    obtain ⟨hrefs, hver⟩ := h.counted hl
    have hc (d : Key) := @dropContentReference_counters
      { idx with contents := idx.contents.delete key } key value now hrefs hver d
    have hg := dropContentReference_garbage { idx with contents := idx.contents.delete key } key
      value now
    dsimp only at hc hg ⊢
    refine ⟨fun d => ?_, fun d => ?_, fun d hd => ?_⟩
    · dsimp only
      rw [(hc d).1, (hc d).2.1, h.refs, GoMap.count_delete, hl]
      rfl
    · dsimp only
      rw [(hc d).1, (hc d).2.2, h.verified, GoMap.count_delete, hl]
      rfl
    · dsimp only at hd ⊢
      rw [hg, if_neg (by omega)]
      refine h.collectable d ?_
      have := (hc d).2.1
      split_ifs at this <;> omega

theorem ContentExact.replace {idx mid : FileIndex} (h : ContentExact idx) (key : Key)
    (value : ContentInfo) (hcontents : mid.contents = idx.contents)
    (hrefs : ∀ d, mid.contentRefs.counter d = idx.contentRefs.counter d -
      if (idx.contents.load key).any (refersTo d key) then 1 else 0)
    (hver : ∀ d, mid.contentVerifiedRefs.counter d = idx.contentVerifiedRefs.counter d -
      if (idx.contents.load key).any (verifies d key) then 1 else 0)
    (hgarbage : ∀ d, 0 < mid.contentRefs.counter d → mid.contentGarbage.load d = none) :
    ContentExact (addContent mid key value) := by
  refine ⟨fun d => ?_, fun d => ?_, fun d hd => ?_⟩
  · obtain ⟨h1, h2, -⟩ := addContent_counters mid key value d
    rw [h1, h2, hrefs, h.refs, hcontents, GoMap.count_store]
  · obtain ⟨h1, -, h2⟩ := addContent_counters mid key value d
    rw [h1, h2, hver, h.verified, hcontents, GoMap.count_store]
  · obtain ⟨-, h2, -⟩ := addContent_counters mid key value d
    rw [addContent_garbage]
    split_ifs with hr
    · rfl
    · rw [h2, if_neg hr, add_zero] at hd
      exact hgarbage d hd

theorem ContentExact.putContent {idx : FileIndex} (h : ContentExact idx) (key : Key)
    (value : ContentInfo) (now : ℤ) : ContentExact (idx.putContent key value now) := by
  unfold FileIndex.putContent
  cases hl : idx.contents.load key with
  | none => exact h.replace key value rfl (by simp [hl]) (by simp [hl]) h.collectable
  | some old =>
    dsimp only
    split_ifs
    · exact h
    obtain ⟨hrefs, hver⟩ := h.counted hl
    have hc := dropContentReference_counters now hrefs hver
    have hg := dropContentReference_garbage idx key old now
    dsimp only at hc hg
    refine h.replace key value (hc key).1 (fun d => ?_) (fun d => ?_) (fun d hd => ?_)
    · rw [(hc d).2.1, hl]
      rfl
    · rw [(hc d).2.2, hl]
      rfl
    · rw [hg, if_neg (by omega)]
      refine h.collectable d ?_
      have := (hc d).2.1
      split_ifs at this <;> omega

theorem ContentExact.garbage {idx : FileIndex} (h : ContentExact idx) {garbage : GoMap Key ℤ}
    {b : Bool} (hg : ∀ d, 0 < idx.contentRefs.counter d → garbage.load d = none) :
    ContentExact { idx with contentGarbage := garbage, isDirty := b } :=
  ⟨h.refs, h.verified, hg⟩

theorem ContentExact.storeGarbage {idx : FileIndex} (h : ContentExact idx) {key : Key} (since : ℤ)
    (b : Bool) (hk : ¬ 0 < idx.contentRefs.counter key) :
    ContentExact { idx with
      contentGarbage := idx.contentGarbage.store key since, isDirty := b } := by
  refine h.garbage fun d hd => ?_
  rw [GoMap.load_store_ne _ _ (by rintro rfl; exact hk hd)]
  exact h.collectable d hd

theorem ContentExact.step {idx : FileIndex} (h : ContentExact idx) (op : ContentOp) :
    ContentExact (idx.contentStep op) := by
  cases op with
  | putContent key value now => exact h.putContent key value now
  | removeContent key now => exact h.removeContent key now
  | removeContentIfMatch key expected now =>
    unfold contentStep removeContentIfMatch
    dsimp only
    cases idx.contents.load key with
    | none => exact h
    | some current =>
      dsimp only
      split_ifs
      · exact h.removeContent key now
      · exact h
  | markContentGarbage key since =>
    unfold contentStep markContentGarbage
    dsimp only
    split_ifs with hk
    · exact h
    · cases idx.contentGarbage.load key with
      | none => exact h.storeGarbage since true hk
      | some previous =>
        dsimp only
        split_ifs
        · exact h.storeGarbage since true hk
        · exact h
  | ensureContentGarbage key since =>
    unfold contentStep ensureContentGarbage
    dsimp only
    split_ifs with hk
    · exact h
    · exact h
    · exact h.storeGarbage since true hk
  | forgetContentGarbage key expected =>
    unfold contentStep forgetContentGarbage
    dsimp only
    split_ifs
    · refine h.garbage fun d hd => ?_
      rw [GoMap.load_delete, h.collectable d hd, ite_self]
    · exact h

theorem ContentExact.run {idx : FileIndex} (h : ContentExact idx) (ops : List ContentOp) :
    ContentExact (idx.contentRun ops) :=
  List.foldlRecOn ops _ h fun _ hi op _ => hi.step op

/-- `d` is referenced or garbage. -/
def Held (d : Key) (idx : FileIndex) : Prop :=
  0 < idx.contentRefs.counter d ∨ (idx.contentGarbage.load d).isSome

/-- The call takes `d` out of the garbage set as forgotten. -/
def Forgets (d : Key) (idx : FileIndex) : ContentOp → Prop
  | .forgetContentGarbage key expected => key = d ∧ idx.contentGarbage.load d = some expected
  | _ => False

/-- No call of the run forgets `d`. -/
def Unforgotten (d : Key) (idx : FileIndex) : List ContentOp → Prop
  | [] => True
  | op :: ops => ¬ Forgets d idx op ∧ Unforgotten d (idx.contentStep op) ops

theorem Held.dropContentReference {idx : FileIndex} {d : Key} (h : Held d idx) {key : Key}
    {value : ContentInfo} (now : ℤ)
    (hrefs : ∀ d, refersTo d key value = true → 1 ≤ idx.contentRefs.counter d)
    (hver : ∀ d, verifies d key value = true → 1 ≤ idx.contentVerifiedRefs.counter d) :
    Held d (idx.dropContentReference key value now) := by
  have hc := (dropContentReference_counters now hrefs hver d).2.1
  have hg := dropContentReference_garbage idx key value now d
  dsimp only at hc hg
  unfold Held
  by_cases hd : refersTo d key value = true
  · -- the digest the record refers to: either a reference is left or it has just been collected
    by_cases hz : (idx.dropContentReference key value now).contentRefs.counter d ≤ 0
    · rw [hg, if_pos ⟨hd, hz⟩]
      exact Or.inr rfl
    · exact Or.inl (by omega)
  · rw [hg, hc, if_neg hd, if_neg fun hn => hd hn.1, sub_zero]
    exact h

theorem Held.addContent {idx : FileIndex} {d : Key} (h : Held d idx) (hn : 0 ≤ idx.contentRefs.counter d)
    (key : Key) (value : ContentInfo) : Held d (idx.addContent key value) := by
  have hc := (addContent_counters idx key value d).2.1
  unfold Held
  rw [hc, addContent_garbage]
  by_cases hd : refersTo d key value = true
  · rw [if_pos hd]
    exact Or.inl (by omega)
  · rw [if_neg hd, if_neg hd, add_zero]
    exact h

theorem ContentExact.refs_nonneg {idx : FileIndex} (h : ContentExact idx) (d : Key) :
    0 ≤ idx.contentRefs.counter d := by
  rw [h.refs]
  omega

theorem Held.storeGarbage {idx : FileIndex} {d : Key} (h : Held d idx) (key : Key) (since : ℤ)
    (b : Bool) : Held d { idx with
      contentGarbage := idx.contentGarbage.store key since, isDirty := b } := by
  refine h.imp id fun hg => ?_
  dsimp only
  rw [GoMap.load_store]
  split_ifs
  · rfl
  · exact hg

theorem Held.step {idx : FileIndex} {d : Key} (h : Held d idx) (hx : ContentExact idx)
    {op : ContentOp} (hop : ¬ Forgets d idx op) : Held d (idx.contentStep op) := by
  have hremove : ∀ key now, Held d (idx.removeContent key now) := by
    intro key now
    unfold FileIndex.removeContent
    cases hl : idx.contents.load key with
    | none => exact h
    | some value =>
      obtain ⟨hrefs, hver⟩ := hx.counted hl
      have hdel : Held d { idx with contents := idx.contents.delete key } := h
      exact hdel.dropContentReference now hrefs hver
  cases op with
  | putContent key value now =>
    unfold contentStep FileIndex.putContent
    dsimp only
    cases hl : idx.contents.load key with
    | none => exact h.addContent (hx.refs_nonneg d) key value
    | some old =>
      dsimp only
      split_ifs
      · exact h
      obtain ⟨hrefs, hver⟩ := hx.counted hl
      refine (h.dropContentReference now hrefs hver).addContent ?_ key value
      have hc := (dropContentReference_counters now hrefs hver d).2.1
      have hone := hrefs d
      have hnn := hx.refs_nonneg d
      split_ifs at hc with hd
      · have := hone hd
        omega
      · omega
  | removeContent key now => exact hremove key now
  | removeContentIfMatch key expected now =>
    unfold contentStep FileIndex.removeContentIfMatch
    dsimp only
    cases idx.contents.load key with
    | none => exact h
    | some current =>
      dsimp only
      split_ifs
      · exact hremove key now
      · exact h
  | markContentGarbage key since =>
    unfold contentStep FileIndex.markContentGarbage
    dsimp only
    split_ifs
    · exact h
    · cases idx.contentGarbage.load key with
      | none => exact h.storeGarbage key since true
      | some previous =>
        dsimp only
        split_ifs
        · exact h.storeGarbage key since true
        · exact h
  | ensureContentGarbage key since =>
    unfold contentStep FileIndex.ensureContentGarbage
    dsimp only
    split_ifs
    · exact h
    · exact h
    · exact h.storeGarbage key since true
  | forgetContentGarbage key expected =>
    unfold contentStep FileIndex.forgetContentGarbage
    dsimp only
    split_ifs with he
    · -- the entry forgotten is another digest's
      refine h.imp id fun hg => ?_
      dsimp only
      rw [GoMap.load_delete, if_neg]
      · exact hg
      · rintro rfl
        exact hop ⟨rfl, he⟩
    · exact h

theorem Held.run {d : Key} (ops : List ContentOp) : ∀ {idx : FileIndex}, Held d idx →
    ContentExact idx → Unforgotten d idx ops → Held d (idx.contentRun ops) := by
  induction ops with
  | nil => exact fun h _ _ => h
  | cons op ops ih => exact fun h hx hu => ih (h.step hx hu.1) (hx.step op) hu.2

theorem contentRun_append (idx : FileIndex) (pre post : List ContentOp) :
    idx.contentRun (pre ++ post) = (idx.contentRun pre).contentRun post :=
  List.foldl_append

/-- The reference counts of every index built by its content operations. In the last part `d`
was referenced at some time (after `pre`) and has not been forgotten since. -/
theorem contentRun_reference_counts (ops : List ContentOp) (d : Key) :
    let idx := newFileIndex.contentRun ops
    idx.contentRefs.counter d = idx.contents.count (refersTo d) ∧
      idx.contentVerifiedRefs.counter d = idx.contents.count (verifies d) ∧
      (0 < idx.contentRefs.counter d → d ∉ idx.contentGarbage.keys) ∧
      ∀ pre post, ops = pre ++ post → 0 < (newFileIndex.contentRun pre).contentRefs.counter d →
        Unforgotten d (newFileIndex.contentRun pre) post → idx.contentRefs.counter d = 0 →
        d ∈ idx.contentGarbage.keys := by
  have h := newFileIndex_contentExact.run ops
  refine ⟨h.refs d, h.verified d, fun hd => (GoMap.load_eq_none _ _).mp (h.collectable d hd), ?_⟩
  rintro pre post rfl hpos hkept hzero
  have hheld : Held d (newFileIndex.contentRun (pre ++ post)) := by
    rw [contentRun_append]
    exact Held.run post (Or.inl hpos) (newFileIndex_contentExact.run pre) hkept
  rcases hheld with hp | hg
  · omega
  · exact (GoMap.load_isSome _ _).mp hg

end RenoP.Index.FileIndex
