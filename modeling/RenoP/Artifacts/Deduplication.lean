import RenoP.Artifacts.S3

/-!
# Deduplication beside other calls

What holds of the bucket and the index whatever calls run, as long as a download gives the digest
of what it has read to a record of just these bytes.
-/

namespace RenoP.Artifacts.S3

open Interleaving Process

variable {K D E : Type} [DecidableEq K] [DecidableEq D] [DecidableEq E] {h : Hashes K D E}
  {s t u : Store K D E} {id : ℕ} {op : Op K D E} {α : Type}

def Store.Stored (s : Store K D E) (digest : D) : Prop := ∃ b, s.payloads digest = some b

def Grows (s t : Store K D E) : Prop := ∀ d b, s.payloads d = some b → t.payloads d = some b

structure PointerOk (h : Hashes K D E) (s : Store K D E) (etag : E) (digest : Option D) : Prop where
  short : ∃ b, h.etag b = etag ∧ b.length < dedupMinimumSize
  stored : ∀ d, digest = some d → s.Stored d

def InfoOk (h : Hashes K D E) (s : Store K D E) (info : ObjectInfo D E) : Prop :=
  match info.pointer with
  | some p => PointerOk h s info.etag p.digest
  | none => ∃ b, h.etag b = info.etag ∧ b.length = info.size

/-- The ETag is that of bytes of the size. -/
def RawOk (h : Hashes K D E) (record : S3Record D E) : Prop :=
  ∃ b, h.etag b = record.etag ∧ b.length = record.size ∧ record.objectSize = record.size ∧
    (dedupMinimumSize ≤ record.size → ∀ d, record.digest = some d → h.sum b = d)

def RecordOk (h : Hashes K D E) (s : Store K D E) (record : S3Record D E) : Prop :=
  if record.reference then
    PointerOk h s record.etag record.digest ∧ dedupMinimumSize ≤ record.size
  else RawOk h record

structure Inv (h : Hashes K D E) (s : Store K D E) : Prop where
  hashed : ∀ d b, s.payloads d = some b → h.sum b = d
  pointers : ∀ key o p, s.objects key = some o → o.pointer = some p →
    o.body.length < dedupMinimumSize ∧ ∀ d, p.digest = some d → s.Stored d
  index : GoMap.All (RecordOk h s) s.index

structure Rely (id : ℕ) (s t : Store K D E) : Prop where
  grows : Grows s t
  stream : t.streams id = s.streams id

def Op.deduplicates : Op K D E → Bool
  | .deduplicateKnown .. => true
  | _ => false

structure Guar (h : Hashes K D E) (op : Op K D E) (id : ℕ) (s t : Store K D E) : Prop where
  grows : Grows s t
  streams : ∀ id', id' ≠ id → t.streams id' = s.streams id'
  denotes : op.deduplicates = true → ∀ key, t.denotes h key = s.denotes h key

/-- What a download has read when it gives a digest to a record of a large object, has the ETag of
the record. -/
def Fine (h : Hashes K D E) (id : ℕ) (r : Request K D E) (s : Store K D E) : Prop :=
  match r, s.streams id with
  | .put _ record, some (b, delivered) =>
    dedupMinimumSize ≤ record.size → h.etag (b.take delivered) = record.etag
  | _, _ => True

theorem Grows.refl (s : Store K D E) : Grows s s := fun _ _ hb => hb

theorem Grows.trans (h₁ : Grows s t) (h₂ : Grows t u) : Grows s u :=
  fun d b hb => h₂ d b (h₁ d b hb)

theorem Grows.stored (hg : Grows s t) {d : D} (hd : s.Stored d) : t.Stored d :=
  hd.imp fun b hb => hg d b hb

theorem PointerOk.grow {etag : E} {digest : Option D} (hp : PointerOk h s etag digest)
    (hg : Grows s t) : PointerOk h t etag digest :=
  ⟨hp.short, fun d hd => hg.stored (hp.stored d hd)⟩

theorem InfoOk.grow {info : ObjectInfo D E} (hi : InfoOk h s info) (hg : Grows s t) :
    InfoOk h t info := by
  unfold InfoOk at hi ⊢
  split at hi
  · exact hi.grow hg
  · exact hi

theorem RecordOk.grow {record : S3Record D E} (hr : RecordOk h s record) (hg : Grows s t) :
    RecordOk h t record := by
  unfold RecordOk at hr ⊢
  split_ifs at hr ⊢
  · exact ⟨hr.1.grow hg, hr.2⟩
  · exact hr

theorem Rely.refl (id : ℕ) (s : Store K D E) : Rely id s s := ⟨Grows.refl s, rfl⟩

theorem Rely.trans (h₁ : Rely id s t) (h₂ : Rely id t u) : Rely id s u :=
  ⟨h₁.grows.trans h₂.grows, h₂.stream.trans h₁.stream⟩

theorem reference_some {info : ObjectInfo D E} {d : D} {n : ℕ}
    (hr : info.reference = some (some d, n)) :
    ∃ p, info.pointer = some p ∧ p.digest = some d ∧ p.size = n ∧ dedupMinimumSize ≤ n := by
  unfold ObjectInfo.reference at hr
  split at hr
  · cases hr
  · rename_i p hp
    split at hr
    · cases hr
    · rename_i digest hdigest
      split_ifs at hr with hsize
      cases hr
      exact ⟨p, hp, hdigest, rfl, Nat.le_of_not_lt fun hlt => hsize (Or.inl hlt)⟩

theorem reference_none {info : ObjectInfo D E} {n : ℕ} (hr : info.reference = some (none, n)) :
    info.pointer = none ∧ n = info.size := by
  unfold ObjectInfo.reference at hr
  split at hr
  · rename_i hp
    cases hr
    exact ⟨hp, rfl⟩
  · split at hr
    · cases hr
    · split_ifs at hr
      cases hr

theorem RecordOk.objectInfo {record : S3Record D E} (hr : RecordOk h s record) :
    InfoOk h s record.objectInfo := by
  unfold RecordOk at hr
  unfold InfoOk S3Record.objectInfo
  cases href : record.reference with
  | true =>
    rw [if_pos href] at hr
    exact hr.1
  | false =>
    rw [if_neg (Bool.eq_false_iff.mp href)] at hr
    obtain ⟨b, hb, hlength, hsize, -⟩ := hr
    exact ⟨b, hb, hlength.trans hsize.symm⟩

theorem InfoOk.record {info : ObjectInfo D E} (hi : InfoOk h s info) {digest : Option D} {n : ℕ}
    (hr : info.reference = some (digest, n)) (modTime : ℤ) (preserved verified : Bool) :
    RecordOk h s ⟨digest, info.etag, n, info.size, modTime, info.pointer.isSome, preserved,
      verified⟩ := by
  unfold InfoOk at hi
  unfold RecordOk
  cases digest with
  | none =>
    obtain ⟨hnone, rfl⟩ := reference_none hr
    rw [hnone] at hi ⊢
    obtain ⟨b, hb, hlength⟩ := hi
    exact ⟨b, hb, hlength, rfl, nofun⟩
  | some d =>
    obtain ⟨p, hp, hd, -, hn⟩ := reference_some hr
    rw [hp] at hi ⊢
    exact ⟨⟨hi.short, fun d' hd' => hi.stored d' (hd.trans hd')⟩, hn⟩

theorem RecordOk.inherit {record : S3Record D E} (hr : RecordOk h s record)
    {old : Option (S3Record D E)} (hold : ∀ r, old = some r → RecordOk h s r) :
    RecordOk h s (record.inherit old) := by
  cases old with
  | none => exact hr
  | some old =>
    unfold S3Record.inherit
    dsimp only
    split_ifs with hsame
    · obtain ⟨hetag, -, hraw⟩ := hsame
      have hold := hold old rfl
      unfold RecordOk at hr hold ⊢
      rw [if_neg (Bool.eq_false_iff.mp hraw)] at hr ⊢
      obtain ⟨b, hb, hlength, hsize, -⟩ := hr
      refine ⟨b, hb, hlength, hsize, ?_⟩
      intro hlarge d hd
      -- both records are of the bytes that have the ETag
      split_ifs at hold
      · obtain ⟨b', hb', hshort⟩ := hold.1.short
        have hsame := h.etag_injective (hb'.trans (hetag.trans hb.symm))
        rw [hsame, hlength] at hshort
        exact absurd hlarge (Nat.not_le_of_lt hshort)
      · obtain ⟨b', hb', hlength', -, hdigest⟩ := hold
        have hsame := h.etag_injective (hb'.trans (hetag.trans hb.symm))
        rw [← hsame]
        apply hdigest _ d hd
        rw [← hlength', hsame, hlength]
        exact hlarge
    · exact hr

theorem RecordOk.learn {record current : S3Record D E} (hc : RecordOk h s current)
    (hr : RawOk h record) (hetag : current.etag = record.etag) (hsize : current.size = record.size)
    {seen : Content} (hseen : dedupMinimumSize ≤ current.size → h.etag seen = current.etag) :
    RecordOk h s { current with digest := some (h.sum seen) } := by
  obtain ⟨b, hb, hlength, -, -⟩ := hr
  unfold RecordOk at hc ⊢
  split_ifs at hc with href
  · obtain ⟨b', hb', hshort⟩ := hc.1.short
    have hsame := h.etag_injective (hb'.trans (hetag.trans hb.symm))
    rw [hsame, hlength, ← hsize] at hshort
    exact absurd hc.2 (Nat.not_le_of_lt hshort)
  · obtain ⟨b', hb', hlength', hobject, -⟩ := hc
    rw [if_neg href]
    refine ⟨b', hb', hlength', hobject, ?_⟩
    intro hlarge d hd
    cases hd
    exact congrArg h.sum (h.etag_injective (hb'.trans (hseen hlarge).symm))

theorem denotes_grows (hinv : Inv h s) (hobjects : t.objects = s.objects) (hg : Grows s t) (key : K) :
    t.denotes h key = s.denotes h key := by
  unfold Store.denotes
  rw [hobjects]
  cases ho : s.objects key with
  | none => rfl
  | some o =>
    simp only [Option.bind_some]
    split
    · rfl
    · rfl
    · rename_i d n hr
      obtain ⟨p, hp, hd, -⟩ := reference_some hr
      obtain ⟨b, hb⟩ := (hinv.pointers key o p ho hp).2 d hd
      rw [hb, hg d b hb]

theorem setPayload_grows (hinv : Inv h s) {digest : D} {data : Content} (hd : h.sum data = digest) :
    Grows s (s.setPayload digest data) := by
  intro d b hb
  show Function.update s.payloads digest (some data) d = some b
  by_cases hsame : d = digest
  · subst hsame
    rw [Function.update_self]
    exact congrArg some (h.sum_injective (hd.trans (hinv.hashed d b hb).symm))
  · rw [Function.update_of_ne hsame]
    exact hb

theorem Inv.setPayload (hinv : Inv h s) {digest : D} {data : Content} (hd : h.sum data = digest) :
    Inv h (s.setPayload digest data) := by
  have hg := setPayload_grows hinv hd
  constructor
  · intro d b hb
    change Function.update s.payloads digest (some data) d = some b at hb
    by_cases hsame : d = digest
    · subst hsame
      rw [Function.update_self] at hb
      cases hb
      exact hd
    · rw [Function.update_of_ne hsame] at hb
      exact hinv.hashed d b hb
  · intro key o p ho hp
    obtain ⟨hshort, hstored⟩ := hinv.pointers key o p ho hp
    exact ⟨hshort, fun d hd => hg.stored (hstored d hd)⟩
  · exact fun key record hload => (hinv.index key record hload).grow hg

theorem Inv.same (hinv : Inv h s) (hobjects : t.objects = s.objects)
    (hpayloads : t.payloads = s.payloads) (hindex : GoMap.All (RecordOk h s) t.index) :
    Inv h t := by
  have hg : Grows s t := fun d b hb => (congrFun hpayloads d).trans hb
  constructor
  · rw [hpayloads]
    exact hinv.hashed
  · intro key o p ho hp
    rw [hobjects] at ho
    obtain ⟨hshort, hstored⟩ := hinv.pointers key o p ho hp
    exact ⟨hshort, fun d hd => hg.stored (hstored d hd)⟩
  · exact fun key record hload => (hindex key record hload).grow hg

theorem setObject_self (s : Store K D E) (key : K) (new : Option (Object D)) :
    (s.setObject key new).objects key = new := Function.update_self ..

theorem setObject_of_ne {key key' : K} (hne : key' ≠ key) (new : Option (Object D)) :
    (s.setObject key new).objects key' = s.objects key' := Function.update_of_ne hne ..

theorem Inv.setObject (hinv : Inv h s) (key : K) {new : Option (Object D)}
    (hnew : ∀ o p, new = some o → o.pointer = some p →
      o.body.length < dedupMinimumSize ∧ ∀ d, p.digest = some d → s.Stored d) :
    Inv h (s.setObject key new) := by
  have hg : Grows s (s.setObject key new) := fun _ _ hb => hb
  refine ⟨hinv.hashed, ?_, fun key record hload => (hinv.index key record hload).grow hg⟩
  intro key' o p ho hp
  by_cases hsame : key' = key
  · subst hsame
    rw [setObject_self] at ho
    exact hnew o p ho hp
  · rw [setObject_of_ne hsame] at ho
    exact hinv.pointers key' o p ho hp

def Mutation.Pre (h : Hashes K D E) (op : Op K D E) (s : Store K D E) : Mutation K D E → Prop
  | .putObject .. | .removeObject _ => op.deduplicates = false
  | .putReference _ digest size prior =>
    dedupMinimumSize ≤ size ∧ s.Stored digest ∧ (op.deduplicates = true → ∃ info b,
      prior = some info ∧ h.etag b = info.etag ∧ dedupMinimumSize ≤ b.length ∧ h.sum b = digest)
  | .putPayload digest data => h.sum data = digest
  | .copyObject _ etag digest => ∃ b, h.etag b = etag ∧ h.sum b = digest
  | .putMarker | .stage => True

def Mutation.Post (t : Store K D E) : Mutation K D E → Prop
  | .putPayload digest _ | .copyObject _ _ digest => t.Stored digest
  | _ => True

structure Changed (h : Hashes K D E) (op : Op K D E) (s t : Store K D E) : Prop where
  inv : Inv h t
  grows : Grows s t
  streams : t.streams = s.streams
  denotes : op.deduplicates = true → ∀ key, t.denotes h key = s.denotes h key

theorem changed_payload (hinv : Inv h s) {digest : D} {data : Content} (hd : h.sum data = digest) :
    Changed h op s (s.setPayload digest data) ∧ (s.setPayload digest data).Stored digest := by
  have hg := setPayload_grows hinv hd
  refine ⟨⟨hinv.setPayload hd, hg, rfl, fun _ => denotes_grows hinv rfl hg⟩, data, ?_⟩
  exact Function.update_self ..

theorem denotes_reference (hinv : Inv h s) {key : K} {o : Object D} (ho : s.objects key = some o)
    {b : Content} (hb : h.etag b = h.etag o.body) (hlarge : dedupMinimumSize ≤ b.length)
    {digest : D} (hsum : h.sum b = digest) (hstored : s.Stored digest) {size : ℕ}
    (hsize : dedupMinimumSize ≤ size) (modTime : Option ℤ) (now : ℤ) (key' : K) :
    (s.setObject key (some ⟨h.referenceBody digest size, some ⟨some digest, size, modTime⟩,
      now⟩)).denotes h key' = s.denotes h key' := by
  have hbody := h.etag_injective hb
  subst hbody
  unfold Store.denotes
  by_cases hsame : key' = key
  · subst hsame
    rw [setObject_self, ho]
    have hraw : o.pointer = none := by
      cases hp : o.pointer with
      | none => rfl
      | some p => exact absurd hlarge (Nat.not_le_of_lt (hinv.pointers key' o p ho hp).1)
    obtain ⟨b', hb'⟩ := hstored
    have hsum' := h.sum_injective ((hinv.hashed digest b' hb').trans hsum.symm)
    simp only [Option.bind_some, Object.info, ObjectInfo.reference, hraw, h.length_referenceBody,
      Nat.not_lt_of_le hsize, ne_eq, not_true, and_false, or_self, if_false]
    exact hb'.trans (congrArg some hsum')
  · rw [setObject_of_ne hsame]
    rfl

theorem Mutation.apply_spec {m : Mutation K D E} {now : ℤ} (hinv : Inv h s) (hpre : m.Pre h op s)
    (happly : m.apply h now s = some t) : Changed h op s t ∧ m.Post t := by
  cases m with
  | putObject key data =>
    cases happly
    refine ⟨⟨hinv.setObject key ?_, Grows.refl s, rfl, ?_⟩, trivial⟩
    · intro o p ho hp
      cases ho
      cases hp
    · exact fun hdedup => absurd (hdedup.symm.trans hpre) nofun
  | removeObject key =>
    cases happly
    exact ⟨⟨hinv.setObject key nofun, Grows.refl s, rfl,
      fun hdedup => absurd (hdedup.symm.trans hpre) nofun⟩, trivial⟩
  | putReference key digest size prior =>
    obtain ⟨hsize, hstored, hdedup⟩ := hpre
    unfold Mutation.apply at happly
    dsimp only at happly
    split_ifs at happly with hmatch
    cases happly
    refine ⟨⟨hinv.setObject key ?_, Grows.refl s, rfl, ?_⟩, trivial⟩
    · intro o p ho hp
      cases ho
      cases hp
      rw [h.length_referenceBody]
      exact ⟨by decide, fun d hd => Option.some.inj hd ▸ hstored⟩
    · intro hd
      obtain ⟨info, b, rfl, hb, hlarge, hsum⟩ := hdedup hd
      cases ho : s.objects key with
      | none =>
        rw [ho] at hmatch
        cases hmatch
      | some o =>
        rw [ho] at hmatch
        have hetag : h.etag o.body = info.etag := of_decide_eq_true hmatch
        exact denotes_reference hinv ho (hb.trans hetag.symm) hlarge hsum hstored hsize _ now
  | putPayload digest data =>
    cases happly
    exact changed_payload hinv hpre
  | copyObject key etag digest =>
    obtain ⟨b, hb, hsum⟩ := hpre
    unfold Mutation.apply at happly
    dsimp only at happly
    split at happly
    · rename_i o ho
      split_ifs at happly with hetag
      cases happly
      apply changed_payload hinv
      rw [← hsum]
      exact congrArg h.sum (h.etag_injective (hetag.trans hb.symm))
    · cases happly
  | putMarker =>
    cases happly
    exact ⟨⟨hinv, Grows.refl s, rfl, fun _ _ => rfl⟩, trivial⟩
  | stage =>
    cases happly
    exact ⟨⟨hinv, Grows.refl s, rfl, fun _ _ => rfl⟩, trivial⟩

def Request.Pre (h : Hashes K D E) (op : Op K D E) (id : ℕ) (s : Store K D E) :
    Request K D E → Prop
  | .put key record => Fine h id (.put key record) s → RecordOk h s record
  | .mutate m => m.Pre h op s
  | _ => True

def Request.Post (h : Hashes K D E) (id : ℕ) (t : Store K D E) :
    (r : Request K D E) → Response r → Prop
  | .get _, x => ∀ record, x = some record → RecordOk h t record
  | .has digest, x => x = true → t.Stored digest
  | .statObject _, x => ∀ info, x = .found info → InfoOk h t info
  | .statPayload digest, x => ∀ n, x = .found n → t.Stored digest
  | .mutate m, x => x ≠ none → m.Post t
  | .read, x => ∃ b n, t.streams id = some (b, n) ∧ x.seen = b.take n
  | _, _ => True

def Request.streaming : Request K D E → Bool
  | .fetch _ | .read => true
  | _ => false

structure Stepped (h : Hashes K D E) (op : Op K D E) (id : ℕ) (r : Request K D E) (x : Response r)
    (s t : Store K D E) : Prop where
  inv : Inv h t
  guar : Guar h op id s t
  stream : r.streaming = false → t.streams id = s.streams id
  post : r.Post h id t x

theorem Changed.stepped (hc : Changed h op s t) {r : Request K D E} {x : Response r}
    (hpost : r.Post h id t x) : Stepped h op id r x s t :=
  ⟨hc.inv, ⟨hc.grows, fun id' _ => congrFun hc.streams id', hc.denotes⟩,
    fun _ => congrFun hc.streams id, hpost⟩

theorem stepped_quiet (hinv : Inv h s) {r : Request K D E} {x : Response r}
    (hpost : r.Post h id s x) : Stepped h op id r x s s :=
  Changed.stepped ⟨hinv, Grows.refl s, rfl, fun _ _ => rfl⟩ hpost

theorem stepped_same (hinv : Inv h s) (hobjects : t.objects = s.objects)
    (hpayloads : t.payloads = s.payloads) (hstreams : t.streams = s.streams)
    (hindex : GoMap.All (RecordOk h s) t.index) {r : Request K D E} {x : Response r}
    (hpost : r.Post h id t x) : Stepped h op id r x s t := by
  have hg : Grows s t := fun d b hb => (congrFun hpayloads d).trans hb
  exact Changed.stepped ⟨hinv.same hobjects hpayloads hindex, hg, hstreams,
    fun _ => denotes_grows hinv hobjects hg⟩ hpost

theorem stepped_stream (hinv : Inv h s) (b : Content) (n : ℕ) {r : Request K D E} {x : Response r}
    (hr : r.streaming = true) (hpost : r.Post h id (s.setStream id b n) x) :
    Stepped h op id r x s (s.setStream id b n) where
  inv := hinv.same rfl rfl hinv.index
  guar := ⟨fun _ _ hb => hb, fun _ hne => Function.update_of_ne hne .., fun _ _ => rfl⟩
  stream hquiet := by
    rw [hr] at hquiet
    cases hquiet
  post := hpost

omit [DecidableEq E] in
theorem has_stored (hinv : Inv h s) {digest : D}
    (hhas : (s.index.entries.any fun e =>
      e.2.reference && e.2.verified && decide (e.2.digest = some digest)) = true) :
    s.Stored digest := by
  obtain ⟨⟨key, record⟩, hmem, hrecord⟩ := List.any_eq_true.mp hhas
  simp only [Bool.and_eq_true, decide_eq_true_eq] at hrecord
  obtain ⟨⟨href, -⟩, hdigest⟩ := hrecord
  have hok := hinv.index key record ((GoMap.mem_entries_iff s.index key record).mp hmem)
  unfold RecordOk at hok
  rw [if_pos href] at hok
  exact hok.1.stored digest hdigest

omit [DecidableEq D] [DecidableEq E] in
theorem Object.info_ok (hinv : Inv h s) {key : K} {o : Object D} (ho : s.objects key = some o) :
    InfoOk h s (o.info h) := by
  unfold InfoOk Object.info
  cases hp : o.pointer with
  | none => exact ⟨o.body, rfl, rfl⟩
  | some p =>
    obtain ⟨hshort, hstored⟩ := hinv.pointers key o p ho hp
    exact ⟨⟨o.body, rfl, hshort⟩, hstored⟩

theorem serve_mutate {m : Mutation K D E} {c : Choice} {x : Option ℤ} (hinv : Inv h s)
    (hpre : m.Pre h op s) (hserve : serve h id (.mutate m) c s = some (t, x)) :
    Stepped h op id (.mutate m) x s t := by
  cases c with
  | failed =>
    cases hserve
    exact stepped_quiet hinv fun hx => absurd rfl hx
  | bytes n failed => cases hserve
  | lost now =>
    obtain ⟨t, happly, heq⟩ := Option.map_eq_some_iff.mp hserve
    cases heq
    obtain ⟨hchanged, -⟩ := Mutation.apply_spec hinv hpre happly
    exact hchanged.stepped fun hx => absurd rfl hx
  | ok now =>
    unfold serve at hserve
    dsimp only at hserve
    cases happly : m.apply h now s with
    | none =>
      rw [happly] at hserve
      cases hserve
      exact stepped_quiet hinv fun hx => absurd rfl hx
    | some t =>
      rw [happly] at hserve
      cases hserve
      obtain ⟨hchanged, hpost⟩ := Mutation.apply_spec hinv hpre happly
      exact hchanged.stepped fun _ => hpost

theorem serve_spec {r : Request K D E} {c : Choice} {x : Response r} (hinv : Inv h s)
    (hfine : Fine h id r s) (hpre : r.Pre h op id s) (hserve : serve h id r c s = some (t, x)) :
    Stepped h op id r x s t := by
  cases r with
  | mutate m => exact serve_mutate hinv hpre hserve
  | lock l =>
    cases c <;> try cases hserve
    unfold serve at hserve
    dsimp only at hserve
    split_ifs at hserve
    cases hserve
    exact stepped_same (t := { s with held := Function.update s.held l true }) hinv rfl rfl rfl
      hinv.index trivial
  | unlock l =>
    cases c <;> cases hserve
    exact stepped_same (t := { s with held := Function.update s.held l false }) hinv rfl rfl rfl
      hinv.index trivial
  | get key =>
    cases c <;> cases hserve
    exact stepped_quiet hinv fun record hload => hinv.index key record hload
  | put key record =>
    cases c <;> cases hserve
    exact stepped_same (t := { s with index := s.index.store key record }) hinv rfl rfl rfl
      (hinv.index.store key (hpre hfine)) trivial
  | remove key =>
    cases c <;> cases hserve
    exact stepped_same (t := { s with index := s.index.delete key }) hinv rfl rfl rfl
      (hinv.index.delete key) trivial
  | has digest =>
    cases c <;> cases hserve
    exact stepped_quiet hinv fun hx => has_stored hinv hx
  | statObject key =>
    cases c with
    | failed =>
      cases hserve
      exact stepped_quiet hinv nofun
    | ok now =>
      cases hserve
      refine stepped_quiet hinv fun info hinfo => ?_
      cases ho : s.objects key with
      | none =>
        rw [ho] at hinfo
        cases hinfo
      | some o =>
        rw [ho] at hinfo
        cases hinfo
        exact Object.info_ok hinv ho
    | _ => cases hserve
  | statPayload digest =>
    cases c with
    | failed =>
      cases hserve
      exact stepped_quiet hinv nofun
    | ok now =>
      cases hserve
      refine stepped_quiet hinv fun n hn => ?_
      cases hb : s.payloads digest with
      | none =>
        rw [hb] at hn
        cases hn
      | some b => exact ⟨b, hb⟩
    | _ => cases hserve
  | fetch source =>
    cases c <;> cases hserve
    · exact stepped_stream hinv _ _ rfl trivial
    · exact stepped_stream hinv _ _ rfl trivial
  | read =>
    cases c with
    | bytes n failed =>
      unfold serve at hserve
      dsimp only at hserve
      split at hserve
      · split_ifs at hserve
        cases hserve
        exact stepped_stream hinv _ _ rfl ⟨_, _, Function.update_self .., rfl⟩
      · cases hserve
    | _ => cases hserve

abbrev Ok (h : Hashes K D E) (op : Op K D E) (id : ℕ) (post : α → Store K D E → Prop)
    (p : Call K D E α) (s : Store K D E) : Prop :=
  p.Sound (serve h id) (fun r _ => Fine h id r) id (fun _ => Inv h) (Rely id) (Guar h op id) post s

theorem ok_step {r : Request K D E} {k : Response r → Call K D E α} {post : α → Store K D E → Prop}
    (hpre : ∀ t, Rely id s t → r.Pre h op id t)
    (hnext : ∀ x t, Grows s t → (r.streaming = false → t.streams id = s.streams id) →
      r.Post h id t x → Ok h op id post (k x) t) :
    Ok h op id post (ask r >>= k) s := by
  intro n s' _ hinv hrely c t x hfine hserve
  have hstep := serve_spec hinv hfine (hpre s' hrely) hserve
  refine ⟨hstep.inv, hstep.guar, hnext x t (hrely.grows.trans hstep.guar.grows) ?_ hstep.post⟩
  exact fun hquiet => (hstep.stream hquiet).trans hrely.stream

theorem ok_ask {r : Request K D E} {k : Response r → Call K D E α} {post : α → Store K D E → Prop}
    (hquiet : r.streaming = false) (hpre : ∀ t, Rely id s t → r.Pre h op id t)
    (hnext : ∀ x t, Rely id s t → r.Post h id t x → Ok h op id post (k x) t) :
    Ok h op id post (ask r >>= k) s :=
  ok_step hpre fun x t hg hstream hpost => hnext x t ⟨hg, hstream hquiet⟩ hpost

theorem ok_withLock (l : Lock) {call : Call K D E α}
    (hcall : ∀ t, Rely id s t → Ok h op id (fun _ _ => True) call t) :
    Ok h op id (fun _ _ => True) (withLock l call) s := by
  refine ok_ask rfl (fun _ _ => trivial) fun _ t hrely _ => ?_
  refine Sound.bind (hcall t hrely) fun a u _ => ?_
  exact ok_ask rfl (fun _ _ => trivial) fun _ _ _ _ => trivial

theorem ok_remember (key : K) {info : ObjectInfo D E} (hinfo : InfoOk h s info) :
    Ok h op id (fun _ t => Rely id s t) (remember key info) s := by
  unfold remember
  split
  · rename_i digest size physical logical hreference _
    refine ok_ask rfl (fun _ _ => trivial) fun old t hrely hold => ?_
    have hrecord := (hinfo.grow hrely.grows).record hreference logical.lastModified
      info.stamp.isSome true
    refine ok_ask rfl (fun u hlater _ => ?_) fun _ u hlater _ => hrely.trans hlater
    exact (hrecord.inherit hold).grow hlater.grows
  · exact Rely.refl id s

def Told (h : Hashes K D E) (id : ℕ) (s : Store K D E) (x : Stat (ObjectInfo D E))
    (t : Store K D E) : Prop :=
  Rely id s t ∧ ∀ info, x = .found info → InfoOk h t info

theorem ok_statRemote (key : K) : Ok h op id (Told h id s) (statRemote key) s := by
  refine ok_ask rfl (fun _ _ => trivial) fun remote t hrely hremote => ?_
  cases remote with
  | missing => exact ⟨hrely, nofun⟩
  | failed => exact ⟨hrely, nofun⟩
  | found info =>
    have hinfo := hremote info rfl
    refine Sound.bind (ok_remember key hinfo) fun remembered u hlater => ?_
    cases remembered with
    | false => exact ⟨hrely.trans hlater, nofun⟩
    | true =>
      refine ⟨hrely.trans hlater, fun info' heq => ?_⟩
      cases heq
      exact hinfo.grow hlater.grows

theorem ok_stat (key : K) : Ok h op id (Told h id s) (stat key) s := by
  refine ok_ask rfl (fun _ _ => trivial) fun known t hrely hknown => ?_
  have hremote : Ok h op id (Told h id s) (statRemote key) t :=
    (ok_statRemote key).mono fun _ u htold => ⟨hrely.trans htold.1, htold.2⟩
  cases known with
  | none => exact hremote
  | some record =>
    dsimp only
    split_ifs
    · refine ⟨hrely, fun info heq => ?_⟩
      cases heq
      exact (hknown record rfl).objectInfo
    · exact hremote

theorem ok_resolve (key : K) : Ok h op id (fun _ t => Rely id s t) (resolve key) s := by
  refine Sound.bind (ok_stat key) fun info t htold => ?_
  cases info <;> exact htold.1

theorem ok_oldDigest (key : K) : Ok h op id (fun _ t => Rely id s t) (oldDigest key) s := by
  refine Sound.bind (ok_stat key) fun info t htold => ?_
  cases info <;> exact htold.1

theorem ok_unchanged (key : K) (prior : Option (ObjectInfo D E)) :
    Ok h op id (fun _ t => Rely id s t) (unchanged key prior) s := by
  cases prior with
  | none => exact Rely.refl id s
  | some prior =>
    refine Sound.bind (ok_stat key) fun info t htold => ?_
    cases info <;> exact htold.1

theorem ok_provide {digest : D} (size : ℕ) {upload : Mutation K D E}
    (hpre : ∀ t : Store K D E, upload.Pre h op t)
    (hpost : ∀ t : Store K D E, upload.Post t → t.Stored digest) :
    Ok h op id (fun x t => Rely id s t ∧ (x = true → t.Stored digest))
      (provide digest size upload) s := by
  refine ok_ask rfl (fun _ _ => trivial) fun known t hrely hknown => ?_
  cases known with
  | true => exact ⟨hrely, fun _ => hknown rfl⟩
  | false =>
    refine ok_ask rfl (fun _ _ => trivial) fun stored u hlater hstored => ?_
    cases stored with
    | failed => exact ⟨hrely.trans hlater, nofun⟩
    | found stored => exact ⟨hrely.trans hlater, fun _ => hstored stored rfl⟩
    | missing =>
      refine ok_ask rfl (fun v _ => hpre v) fun uploaded v hlast huploaded => ?_
      refine ⟨(hrely.trans hlater).trans hlast, fun hdone => hpost v (huploaded ?_)⟩
      exact Option.isSome_iff_ne_none.mp hdone

structure Installs (h : Hashes K D E) (op : Op K D E) (digest : D) (size : ℕ)
    (prior : Option (ObjectInfo D E)) : Prop where
  large : dedupMinimumSize ≤ size
  prior : op.deduplicates = true → ∃ info b, prior = some info ∧ h.etag b = info.etag ∧
    dedupMinimumSize ≤ b.length ∧ h.sum b = digest

theorem ok_pointTo (key : K) {digest : D} {size : ℕ} {prior : Option (ObjectInfo D E)}
    (hi : Installs h op digest size prior) (hstored : s.Stored digest) :
    Ok h op id (fun _ _ => True) (pointTo h key digest size prior) s := by
  refine ok_ask rfl (fun _ _ => trivial) fun marked t hrely _ => ?_
  dsimp only
  split_ifs
  · trivial
  refine ok_ask rfl (fun _ _ => trivial) fun _ u hlater _ => ?_
  have hkept := (hrely.trans hlater).grows.stored hstored
  refine ok_ask rfl (fun v hv => ⟨hi.large, hv.grows.stored hkept, hi.prior⟩) fun written v hv _ => ?_
  cases written with
  | none => trivial
  | some now =>
    refine ok_ask rfl (fun w hw _ => ?_) fun _ _ _ _ => trivial
    refine ⟨⟨⟨_, rfl, ?_⟩, fun d hd => ?_⟩, hi.large⟩
    · rw [h.length_referenceBody]
      decide
    · cases hd
      exact (hv.trans hw).grows.stored hkept

theorem ok_install (key : K) {digest : D} {size : ℕ} {prior : Option (ObjectInfo D E)}
    {upload : Mutation K D E} (hi : Installs h op digest size prior)
    (hpre : ∀ t : Store K D E, upload.Pre h op t)
    (hpost : ∀ t : Store K D E, upload.Post t → t.Stored digest) :
    Ok h op id (fun _ _ => True) (install h key digest size prior upload) s := by
  refine ok_withLock _ fun t _ => ?_
  refine Sound.bind (ok_oldDigest key) fun old u _ => ?_
  split_ifs
  · trivial
  refine Sound.bind (ok_unchanged key prior) fun same v _ => ?_
  split_ifs
  · trivial
  refine ok_withLock _ fun w _ => ?_
  refine Sound.bind (ok_provide size hpre hpost) fun provided x hprovided => ?_
  cases provided with
  | false => trivial
  | true => exact ok_pointTo key hi (hprovided.2 rfl)

theorem ok_installData (hop : op.deduplicates = false) (key : K) {data : Content}
    (hlarge : ¬data.length < dedupMinimumSize) :
    Ok h op id (fun _ _ => True) (installData h key data) s :=
  ok_install key ⟨Nat.le_of_not_lt hlarge, fun hdedup => absurd (hdedup.symm.trans hop) nofun⟩
    (fun _ => rfl) fun _ hstored => hstored

theorem ok_putRaw (hop : op.deduplicates = false) (key : K) (data : Content) :
    Ok h op id (fun _ _ => True) (putRaw h key data) s := by
  refine ok_withLock _ fun t _ => ?_
  refine Sound.bind (ok_oldDigest key) fun old u _ => ?_
  split_ifs
  · trivial
  refine ok_ask rfl (fun _ _ => trivial) fun _ v _ _ => ?_
  refine ok_ask rfl (fun _ _ => hop) fun written w _ _ => ?_
  cases written with
  | none => trivial
  | some now =>
    refine ok_ask rfl (fun x _ _ => ?_) fun _ _ _ _ => trivial
    exact ⟨data, rfl, rfl, rfl, fun _ => nofun⟩

theorem ok_putFile (hop : op.deduplicates = false) (key : K) (data : Content) :
    Ok h op id (fun _ _ => True) (putFile h key data) s := by
  unfold putFile
  split_ifs with hsmall
  · exact ok_putRaw hop key data
  · exact ok_installData hop key hsmall

theorem ok_putStream (hop : op.deduplicates = false) (key : K) (data : Content)
    (size : Option ℕ) : Ok h op id (fun _ _ => True) (putStream h key data size) s := by
  unfold putStream
  split_ifs
  · exact ok_putRaw hop key data
  refine ok_ask rfl (fun _ _ => trivial) fun staged t _ _ => ?_
  split_ifs
  · trivial
  · exact ok_putFile hop key data

theorem ok_delete (hop : op.deduplicates = false) (key : K) :
    Ok h op id (fun _ _ => True) (deleteObject h key) s := by
  refine ok_withLock _ fun t _ => ?_
  refine Sound.bind (ok_oldDigest key) fun old u _ => ?_
  split_ifs
  · trivial
  refine ok_ask rfl (fun _ _ => trivial) fun _ v _ _ => ?_
  exact ok_ask rfl (fun _ _ => hop) fun _ _ _ _ => trivial

theorem ok_deduplicateKnown (key : K) {record : S3Record D E} (hrecord : RecordOk h s record) :
    Ok h op id (fun _ _ => True) (deduplicateKnown h key record) s := by
  unfold deduplicateKnown
  split
  · trivial
  · rename_i digest hdigest
    split_ifs with hskip
    · trivial
    rw [not_or, not_or, Bool.not_eq_true, Nat.not_lt] at hskip
    obtain ⟨-, hraw, hlarge⟩ := hskip
    unfold RecordOk at hrecord
    rw [if_neg (Bool.eq_false_iff.mp hraw)] at hrecord
    obtain ⟨b, hb, hlength, -, hsum⟩ := hrecord
    refine ok_install key ⟨hlarge, fun _ => ⟨_, b, rfl, hb, ?_, hsum hlarge digest hdigest⟩⟩
      (fun _ => ⟨b, hb, hsum hlarge digest hdigest⟩) fun _ hstored => hstored
    rw [hlength]
    exact hlarge

theorem ok_trackRead (key : K) (logical : ObjectInfo D E) :
    Ok h op id (fun r _ => ∀ reader, r = some reader → RawOk h reader.record)
      (trackRead key logical) s := by
  unfold trackRead
  split_ifs
  · exact nofun
  refine ok_ask rfl (fun _ _ => trivial) fun known t _ hknown => ?_
  cases known with
  | none => exact nofun
  | some record =>
    intro reader hreader
    split_ifs at hreader with hskip
    cases hreader
    have hok := hknown record rfl
    unfold RecordOk at hok
    rw [if_neg fun href => hskip (Or.inl href)] at hok
    exact hok

theorem ok_learn (key : K) {record : S3Record D E} (hrecord : RawOk h record) {seen : Content}
    (hseen : ∃ b n, s.streams id = some (b, n) ∧ seen = b.take n) :
    Ok h op id (fun _ _ => True) (learn h key record seen) s := by
  obtain ⟨b, n, hstream, rfl⟩ := hseen
  refine ok_ask rfl (fun _ _ => trivial) fun known t hrely hknown => ?_
  cases known with
  | none => trivial
  | some current =>
    dsimp only
    split_ifs with hsame
    · refine ok_ask rfl (fun u hlater hfine => ?_) fun _ _ _ _ => trivial
      have hcurrent := (hknown current rfl).grow hlater.grows
      apply hcurrent.learn hrecord hsame.1 hsame.2
      unfold Fine at hfine
      rw [hlater.stream, hrely.stream, hstream] at hfine
      exact hfine
    · trivial

theorem ok_deliver (key : K) {r : LearningReader D E} (hr : RawOk h r.record) {x : Delivered}
    (hx : ∃ b n, s.streams id = some (b, n) ∧ x.seen = b.take n) :
    Ok h op id (fun r' _ => RawOk h r'.record) (r.deliver h key x) s := by
  unfold LearningReader.deliver
  split_ifs
  · exact hr
  · exact Sound.bind (ok_learn key hr hx) fun _ _ _ => hr
  · exact ok_ask rfl (fun _ _ => trivial) fun _ _ _ _ => hr
  · exact hr

theorem ok_readAll (key : K) (calls : List ReadCall) :
    ∀ {s : Store K D E} {r : LearningReader D E}, RawOk h r.record →
      Ok h op id (fun _ _ => True) (readAll h key calls r) s := by
  induction calls with
  | nil => exact fun _ => trivial
  | cons call calls ih =>
    intro s r hr
    cases call with
    | readAt => exact ih (r := { r with disabled := true }) hr
    | read =>
      refine ok_step (fun _ _ => trivial) fun x t _ _ hx => ?_
      exact Sound.bind (ok_deliver key hr hx) fun r' u hr' => ih hr'

theorem ok_download (key : K) (calls : List ReadCall) :
    Ok h op id (fun _ _ => True) (download h key calls) s := by
  refine Sound.bind (ok_resolve key) fun resolved t _ => ?_
  cases resolved with
  | none => trivial
  | some found =>
    refine Sound.bind (ok_trackRead key found.2) fun tracked u htracked => ?_
    cases tracked with
    | none => trivial
    | some reader =>
      refine ok_step (fun _ _ => trivial) fun _ v _ _ _ => ?_
      exact Sound.bind (ok_readAll key calls (htracked reader rfl)) fun _ _ _ => trivial

theorem ok_body {n : ℕ} (hinv : Inv h s) (hbegin : begin n op s = some t) :
    Ok h op id (fun _ _ => True) (body h op) t := by
  cases op with
  | putFile key data => exact ok_putFile rfl key data
  | putStream key data size => exact ok_putStream rfl key data size
  | putRaw key data => exact ok_putRaw rfl key data
  | delete key => exact ok_delete rfl key
  | download key calls => exact ok_download key calls
  | deduplicateKnown key record =>
    unfold begin at hbegin
    dsimp only at hbegin
    split_ifs at hbegin with hload
    cases hbegin
    exact ok_deduplicateKnown key ((hinv.index key record hload).grow fun _ _ hb => hb)

theorem begin_eq {n : ℕ} (hbegin : begin n op s = some t) :
    t = { s with streams := Function.update s.streams n none } := by
  unfold begin at hbegin
  split at hbegin
  · split_ifs at hbegin
    exact (Option.some.inj hbegin).symm
  · exact (Option.some.inj hbegin).symm

def outline (h : Hashes K D E) : Outline (service h) where
  inv _ := Inv h
  rely id _ := Rely id
  guar id op := Guar h op id
  post _ _ _ _ := True
  fine id r _ := Fine h id r
  compatible _ _ := True
  rely_refl id _ s := Rely.refl id s
  rely_trans _ _ _ _ _ h₁ h₂ := h₁.trans h₂
  begin_inv n op s t hinv hbegin := by
    rw [begin_eq hbegin]
    exact hinv.same rfl rfl hinv.index
  begin_sound n op s t hinv hbegin := ok_body hinv hbegin
  begin_rely n op s t _ hbegin id op' hid _ := by
    rw [begin_eq hbegin]
    exact ⟨fun _ _ hb => hb, Function.update_of_ne (Nat.ne_of_lt hid) ..⟩
  guar_rely id op id' op' s t hne _ hguar := ⟨hguar.grows, hguar.streams id' (Ne.symm hne)⟩
  restart_inv n s hinv := by
    refine hinv.same rfl rfl (hinv.index.updateWhere _ fun key record hrecord => ?_)
    exact hrecord

/-- References have their payloads under their digests, and the index is new. -/
structure Initial (h : Hashes K D E) (s : Store K D E) : Prop where
  hashed : ∀ d b, s.payloads d = some b → h.sum b = d
  references : ∀ key o p, s.objects key = some o → o.pointer = some p →
    o.body.length ≤ referenceBodySize ∧ ∀ d, p.digest = some d → s.Stored d
  index : s.index = ∅

abbrev S3System (K D E : Type) := System (Request K D E) Response Bool (Store K D E) (Op K D E)

/-- A download gives the digest of what it has read to a record of just that. -/
def LearnsOwn (h : Hashes K D E) (y : S3System K D E) : Event Choice (Op K D E) → Prop
  | .turn id _ => ∀ op r next, y.threads.load id = some (op, .ask r next) → Fine h id r y.store
  | _ => True

def Hashed (h : Hashes K D E) (y : S3System K D E) : Prop :=
  ∀ d b, y.store.payloads d = some b → h.sum b = d

/-- A step of `DeduplicateKnown` changes the bytes of no key. -/
def Preserves (h : Hashes K D E) (y : S3System K D E) (e : Event Choice (Op K D E)) : Prop :=
  ∀ id c op, e = .turn id c → (y.threads.load id).map Prod.fst = some op →
    op.deduplicates = true → ∀ key,
      (y.next (service h) e).store.denotes h key = y.store.denotes h key

theorem preserves_of_kept {y : S3System K D E} {e : Event Choice (Op K D E)}
    (hk : Kept (outline h) y) (hpermitted : Permitted (outline h) y e) : Preserves h y e := by
  rintro id c op rfl hload hdedup key
  rcases hk.turn_guar hpermitted with hsame | ⟨op', p, hload', hguar⟩
  · rw [hsame]
  · rw [hload'] at hload
    cases hload
    exact hguar.denotes hdedup key

/-- Beside any other calls a payload has the hash that it is stored under, and deduplication
changes no contents, as long as digests are learned from the bytes that they are given to. -/
theorem deduplication_preserves (h : Hashes K D E) {store : Store K D E} (hinit : Initial h store)
    {events : List (Event Choice (Op K D E))}
    (hlearns : Runs.Along (System.next (service h)) (LearnsOwn h) (System.initial store) events) :
    Runs.Through (System.next (service h)) (Hashed h) (System.initial store) events ∧
      Runs.Along (System.next (service h)) (Preserves h) (System.initial store) events := by
  have hinv : Inv h store := by
    refine ⟨hinit.hashed, fun key o p ho hp => ?_, ?_⟩
    · obtain ⟨hshort, hstored⟩ := hinit.references key o p ho hp
      exact ⟨Nat.lt_of_le_of_lt hshort (by decide), hstored⟩
    · rw [hinit.index]
      exact GoMap.all_empty
  have hpermitted : Runs.Along (System.next (service h)) (Permitted (outline h))
      (System.initial store) events := by
    refine hlearns.mono fun y e he => ?_
    cases e with
    | start op => exact fun _ _ _ _ => ⟨trivial, trivial⟩
    | turn id c => exact he
    | restart => exact trivial
  have hkept := kept_run (outline h) hinv hpermitted
  refine ⟨hkept.mono fun y hk => hk.inv.hashed, ?_⟩
  have hpreserves : ∀ (y : S3System K D E) e, Kept (outline h) y → Permitted (outline h) y e →
      Preserves h y e := fun y e hk hp => preserves_of_kept hk hp
  exact Runs.Along.of_through hpreserves hkept hpermitted

def plainHashes : Hashes ℕ Content Content where
  sum b := b
  etag b := b
  referenceBody _ n := ⟨97, n % 256 ^ 97, Nat.mod_lt _ (Nat.pow_pos (by decide))⟩
  targetStripe _ := 0
  contentStripe _ := 0
  sum_injective _ _ h := h
  etag_injective _ _ h := h
  length_referenceBody _ _ := rfl

def bucket : Store ℕ Content Content where
  objects _ := none
  payloads _ := none
  index := ∅
  held _ := false
  streams _ := none

theorem bucket_initial : Initial plainHashes bucket := ⟨nofun, nofun, rfl⟩

def zeros : Content := ⟨65536, 0, Nat.pow_pos (by decide)⟩

def ones : Content := ⟨65536, 1, Nat.one_lt_pow (by decide) (by decide)⟩

def turns (id n : ℕ) : List (Event Choice (Op ℕ Content Content)) :=
  List.replicate n (.turn id (.ok 1))

def performs (op : Op ℕ Content Content) (id n : ℕ) :
    List (Event Choice (Op ℕ Content Content)) :=
  .start op :: turns id n

def learned : S3Record Content Content := ⟨some ones, zeros, 65536, 65536, 1, false, false, true⟩

/-- The download of 2 is tracked while the object has zeros, reads ones, and ends when the object
has zeros again. -/
def crossed : List (Event Choice (Op ℕ Content Content)) :=
  performs (.putFile 1 ones) 0 13 ++ performs (.putRaw 0 zeros) 1 8 ++
    performs (.download 0 [.read]) 2 2 ++ performs (.putRaw 0 ones) 3 8 ++ turns 2 1 ++
    performs (.putRaw 0 zeros) 4 8 ++ .turn 2 (.bytes 65536 false) :: turns 2 2 ++
    performs (.deduplicateKnown 0 learned) 5 7

theorem crossed_changes :
    Initial plainHashes bucket ∧
      ¬Runs.Along (System.next (service plainHashes)) (Preserves plainHashes)
        (System.initial bucket) (crossed ++ [.turn 5 (.ok 1)]) := by
  refine ⟨bucket_initial, fun hpreserves => ?_⟩
  have hlast := (Runs.along_append hpreserves).2.1
  have hsame := hlast 5 (.ok 1) (.deduplicateKnown 0 learned) rfl (by decide +kernel) rfl 0
  have hbefore : (crossed.foldl (System.next (service plainHashes))
      (System.initial bucket)).store.denotes plainHashes 0 = some zeros := by decide +kernel
  have hafter : ((crossed.foldl (System.next (service plainHashes))
      (System.initial bucket)).next (service plainHashes)
        (.turn 5 (.ok 1))).store.denotes plainHashes 0 = some ones := by decide +kernel
  rw [hbefore, hafter] at hsame
  exact absurd hsame (by decide +kernel)

/-- Whether a turn that puts a record puts it as `LearnsOwn` asks. -/
def learnsOwn (y : S3System ℕ Content Content) : Event Choice (Op ℕ Content Content) → Bool
  | .turn id _ =>
    match (y.threads.load id).bind fun e => e.2.pending, y.store.streams id with
    | some (.put _ record), some (b, delivered) => decide (b.take delivered = record.etag)
    | _, _ => true
  | _ => true

theorem learnsOwn_spec (y : S3System ℕ Content Content) (e : Event Choice (Op ℕ Content Content))
    (h : learnsOwn y e = true) : LearnsOwn plainHashes y e := by
  cases e with
  | start op => exact trivial
  | restart => exact trivial
  | turn id c =>
    intro op r next hload
    unfold learnsOwn at h
    dsimp only at h
    rw [hload] at h
    unfold Fine
    split
    · rename_i key record b delivered hstream
      rw [hstream] at h
      exact fun _ => of_decide_eq_true h
    · exact trivial

def straight : List (Event Choice (Op ℕ Content Content)) :=
  performs (.putFile 1 ones) 0 13 ++ performs (.putRaw 0 ones) 1 8 ++
    performs (.download 0 [.read]) 2 3 ++ .turn 2 (.bytes 65536 false) :: turns 2 2 ++
    performs (.deduplicateKnown 0 { learned with etag := ones }) 3 13

theorem straight_preserves :
    Runs.Through (System.next (service plainHashes)) (Hashed plainHashes) (System.initial bucket)
        straight ∧
      Runs.Along (System.next (service plainHashes)) (Preserves plainHashes)
        (System.initial bucket) straight := by
  have hlearns : Runs.Along (System.next (service plainHashes)) (fun y e => learnsOwn y e = true)
      (System.initial bucket) straight := by
    decide +kernel
  exact deduplication_preserves plainHashes bucket_initial (hlearns.mono learnsOwn_spec)

end RenoP.Artifacts.S3
