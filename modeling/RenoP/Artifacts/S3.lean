import RenoP.Lib.Interleaving

/-!
# The content store in S3

`S3` of `internal/artifactstore/s3.go` and `s3_index.go`, and `DownloadFromS3Direct` of
`service/storage/s3.go`. Every request to the bucket, every operation of the index and every read
of a download is one step that may fail. Markers and staged objects are written and removed, but
nothing here reads the ones, and the others have names of their own.
-/

namespace RenoP.Artifacts.S3

/-- A string of bytes: how many there are, and the number that they spell. -/
structure Content where
  length : ℕ
  value : ℕ
  bound : value < 256 ^ length
  deriving DecidableEq

def Content.take (b : Content) (n : ℕ) : Content :=
  if h : n < b.length then
    ⟨n, b.value / 256 ^ (b.length - n), by
      apply Nat.div_lt_of_lt_mul
      rw [← pow_add, Nat.sub_add_cancel h.le]
      exact b.bound⟩
  else b

def dedupMinimumSize : ℕ := 64 * 1024

def referenceBodySize : ℕ := 97

/-- The hashes are taken as free of collisions, and ETags as a function of the bytes. -/
structure Hashes (K D E : Type) where
  sum : Content → D
  etag : Content → E
  /-- the body that `install` writes under a key -/
  referenceBody : D → ℕ → Content
  /-- which of `s3TargetLocks` and of `s3ContentLocks` -/
  targetStripe : K → Fin 128
  contentStripe : D → Fin 128
  sum_injective : Function.Injective sum
  etag_injective : Function.Injective etag
  length_referenceBody : ∀ d n, (referenceBody d n).length = referenceBodySize

structure Pointer (D : Type) where
  digest : Option D
  size : ℕ
  modTime : Option ℤ

structure Object (D : Type) where
  body : Content
  pointer : Option (Pointer D)
  lastModified : ℤ

structure ObjectInfo (D E : Type) where
  etag : E
  size : ℕ
  lastModified : ℤ
  pointer : Option (Pointer D)

structure S3Record (D E : Type) where
  digest : Option D
  etag : E
  size : ℕ
  objectSize : ℕ
  modTime : ℤ
  reference : Bool
  preservedTime : Bool
  verified : Bool
  deriving DecidableEq

inductive Physical (K D : Type) where
  | object (key : K)
  | payload (digest : D)

variable {K D E : Type}

def S3Record.objectInfo (record : S3Record D E) : ObjectInfo D E where
  etag := record.etag
  size := record.objectSize
  lastModified := record.modTime
  pointer :=
    if record.reference then
      some ⟨record.digest, record.size, if record.preservedTime then some record.modTime else none⟩
    else none

/-- `Reference`: the digest that is referred to, and the size of the contents. -/
def ObjectInfo.reference (info : ObjectInfo D E) : Option (Option D × ℕ) :=
  match info.pointer with
  | none => some (none, info.size)
  | some p =>
    match p.digest with
    | none => none
    | some digest =>
      if p.size < dedupMinimumSize ∨ (info.size ≠ 0 ∧ info.size ≠ referenceBodySize) then none
      else some (some digest, p.size)

/-- `renop-modtime` -/
def ObjectInfo.stamp (info : ObjectInfo D E) : Option ℤ := info.pointer.bind (·.modTime)

def resolveInfo (key : K) (info : ObjectInfo D E) : Option (Physical K D × ObjectInfo D E) :=
  match info.reference with
  | none => none
  | some (none, _) => some (.object key, info)
  | some (some digest, size) =>
    match info.stamp with
    | none => some (.payload digest, { info with size := size })
    | some stamp =>
      if stamp ≤ 0 then none
      else some (.payload digest, { info with size := size, lastModified := stamp })

inductive Lock where
  | target (stripe : Fin 128)
  | content (stripe : Fin 128)
  deriving DecidableEq

structure Store (K D E : Type) where
  objects : K → Option (Object D)
  payloads : D → Option Content
  index : GoMap K (S3Record D E)
  held : Lock → Bool
  /-- the version that a download has fetched, and how much of it was delivered -/
  streams : ℕ → Option (Content × ℕ)

inductive Mutation (K D E : Type) where
  | putObject (key : K) (data : Content)
  | putReference (key : K) (digest : D) (size : ℕ) (prior : Option (ObjectInfo D E))
  | removeObject (key : K)
  | putPayload (digest : D) (data : Content)
  | copyObject (key : K) (matchETag : E) (digest : D)
  | putMarker
  | stage

inductive Request (K D E : Type) where
  | lock (l : Lock)
  | unlock (l : Lock)
  | get (key : K)
  | put (key : K) (record : S3Record D E)
  | remove (key : K)
  | has (digest : D)
  | statObject (key : K)
  | statPayload (digest : D)
  | mutate (m : Mutation K D E)
  | fetch (source : Physical K D)
  | read

inductive Stat (α : Type) where
  | found (info : α)
  | missing
  | failed

/-- What one `Read` gives; `seen` is all that the reader has given so far. -/
structure Delivered where
  n : ℕ
  failed : Bool
  seen : Content

def Response : Request K D E → Type
  | .get _ => Option (S3Record D E)
  | .has _ | .fetch _ => Bool
  | .statObject _ => Stat (ObjectInfo D E)
  | .statPayload _ => Stat ℕ
  -- the time of the change, where it is acknowledged
  | .mutate _ => Option ℤ
  | .read => Delivered
  | _ => Unit

/-- How a step goes: a change whose answer is `lost` is made and reported as failed. -/
inductive Choice where
  | ok (now : ℤ)
  | lost (now : ℤ)
  | failed
  | bytes (n : ℕ) (failed : Bool)

variable [DecidableEq K] [DecidableEq D] [DecidableEq E] (h : Hashes K D E)

def Object.info (o : Object D) : ObjectInfo D E :=
  ⟨h.etag o.body, o.body.length, o.lastModified, o.pointer⟩

def Store.setObject (s : Store K D E) (key : K) (o : Option (Object D)) : Store K D E :=
  { s with objects := Function.update s.objects key o }

def Store.setPayload (s : Store K D E) (digest : D) (data : Content) : Store K D E :=
  { s with payloads := Function.update s.payloads digest (some data) }

/-- The bucket after a change; `none` where a precondition is not met. -/
def Mutation.apply (now : ℤ) (s : Store K D E) : Mutation K D E → Option (Store K D E)
  | .putObject key data => some (s.setObject key (some ⟨data, none, now⟩))
  | .putReference key digest size prior =>
    let pointer : Pointer D := ⟨some digest, size, prior.map (·.lastModified)⟩
    if prior.all fun info => (s.objects key).any fun o => decide (h.etag o.body = info.etag) then
      some (s.setObject key (some ⟨h.referenceBody digest size, some pointer, now⟩))
    else none
  | .removeObject key => some (s.setObject key none)
  | .putPayload digest data => some (s.setPayload digest data)
  | .copyObject key etag digest =>
    match s.objects key with
    | some o => if h.etag o.body = etag then some (s.setPayload digest o.body) else none
    | none => none
  | .putMarker | .stage => some s

def Store.version (s : Store K D E) : Physical K D → Option Content
  | .object key => (s.objects key).map (·.body)
  | .payload digest => s.payloads digest

def Store.setStream (s : Store K D E) (id : ℕ) (b : Content) (delivered : ℕ) : Store K D E :=
  { s with streams := Function.update s.streams id (some (b, delivered)) }

def nothing : Content := ⟨0, 0, Nat.one_pos⟩

def serve (id : ℕ) : (r : Request K D E) → Choice → Store K D E → Option (Store K D E × Response r)
  | .lock l, .ok _, s =>
    if s.held l then none else some ({ s with held := Function.update s.held l true }, ())
  | .unlock l, .ok _, s => some ({ s with held := Function.update s.held l false }, ())
  | .get key, .ok _, s => some (s, s.index.load key)
  | .put key record, .ok _, s => some ({ s with index := s.index.store key record }, ())
  | .remove key, .ok _, s => some ({ s with index := s.index.delete key }, ())
  | .has digest, .ok _, s =>
    some (s, s.index.entries.any fun e =>
      e.2.reference && e.2.verified && decide (e.2.digest = some digest))
  | .statObject key, .ok _, s =>
    some (s, ((s.objects key).map fun o => .found (o.info h)).getD .missing)
  | .statObject _, .failed, s => some (s, .failed)
  | .statPayload digest, .ok _, s =>
    some (s, ((s.payloads digest).map fun b => .found b.length).getD .missing)
  | .statPayload _, .failed, s => some (s, .failed)
  | .mutate m, .ok now, s => some (((m.apply h now s).map fun t => (t, some now)).getD (s, none))
  | .mutate m, .lost now, s => (m.apply h now s).map fun t => (t, none)
  | .mutate _, .failed, s => some (s, none)
  | .fetch source, .ok _, s =>
    some (s.setStream id ((s.version source).getD nothing) 0, (s.version source).isSome)
  | .fetch _, .failed, s => some (s.setStream id nothing 0, false)
  | .read, .bytes n failed, s =>
    match s.streams id with
    | some (b, delivered) =>
      if delivered + n ≤ b.length then
        some (s.setStream id b (delivered + n), ⟨n, failed, b.take (delivered + n)⟩)
      else none
    | none => none
  | _, _, _ => none

abbrev Call (K D E α : Type) := Process (Request K D E) Response α

def ask (r : Request K D E) : Call K D E (Response r) := Process.call r

def withLock {α : Type} (l : Lock) (call : Call K D E α) : Call K D E α := do
  let _ : Unit ← ask (.lock l)
  let result ← call
  let _ : Unit ← ask (.unlock l)
  return result

/-- A digest that was learned stays with the object that it was learned from. -/
def S3Record.inherit (record : S3Record D E) (old : Option (S3Record D E)) : S3Record D E :=
  match old with
  | none => record
  | some old =>
    if old.etag = record.etag ∧ old.objectSize = record.objectSize ∧ record.reference = false then
      { record with digest := old.digest }
    else record

def remember (key : K) (info : ObjectInfo D E) : Call K D E Bool :=
  match info.reference, resolveInfo key info with
  | some (digest, size), some (_, logical) => do
    let record : S3Record D E := ⟨digest, info.etag, size, info.size, logical.lastModified,
      info.pointer.isSome, info.stamp.isSome, true⟩
    let old : Option (S3Record D E) ← ask (.get key)
    let _ : Unit ← ask (.put key (record.inherit old))
    return true
  | _, _ => return false

def statRemote (key : K) : Call K D E (Stat (ObjectInfo D E)) := do
  let remote : Stat (ObjectInfo D E) ← ask (.statObject key)
  match remote with
  | .found info =>
    let remembered ← remember key info
    return if remembered then .found info else .failed
  | .missing => return .missing
  | .failed => return .failed

def stat (key : K) : Call K D E (Stat (ObjectInfo D E)) := do
  let known : Option (S3Record D E) ← ask (.get key)
  match known with
  | some record => if record.verified then return .found record.objectInfo else statRemote key
  | none => statRemote key

def resolve (key : K) : Call K D E (Option (Physical K D × ObjectInfo D E)) := do
  let info ← stat key
  match info with
  | .found info => return resolveInfo key info
  | _ => return none

/-- The digest that a key refers to, `none` where that is an error. -/
def oldDigest (key : K) : Call K D E (Option (Option D)) := do
  let info ← stat key
  match info with
  | .found info => return info.reference.map Prod.fst
  | .missing => return some none
  | .failed => return none

/-- `current.ETag` is still that of the record. -/
def unchanged (key : K) : Option (ObjectInfo D E) → Call K D E Bool
  | none => return true
  | some prior => do
    let current ← stat key
    match current with
    | .found current => return decide (current.etag = prior.etag)
    | _ => return false

def provide (digest : D) (size : ℕ) (upload : Mutation K D E) : Call K D E Bool := do
  let known : Bool ← ask (.has digest)
  if known then return true
  else
    let stored : Stat ℕ ← ask (.statPayload digest)
    match stored with
    | .missing =>
      let uploaded : Option ℤ ← ask (.mutate upload)
      return uploaded.isSome
    | .failed => return false
    | .found stored => return decide (stored = size)

def pointTo (key : K) (digest : D) (size : ℕ) (prior : Option (ObjectInfo D E)) :
    Call K D E Bool := do
  let marked : Option ℤ ← ask (.mutate .putMarker)
  if marked = none then return false
  else
    let _ : Unit ← ask (.remove key)
    let written : Option ℤ ← ask (.mutate (.putReference key digest size prior))
    match written with
    | none => return false
    | some now =>
      let modified := (prior.map (·.lastModified)).getD now
      let _ : Unit ← ask (.put key ⟨some digest, h.etag (h.referenceBody digest size), size,
        referenceBodySize, modified, true, prior.isSome, true⟩)
      return true

def installLocked (key : K) (digest : D) (size : ℕ) (prior : Option (ObjectInfo D E))
    (upload : Mutation K D E) : Call K D E Bool := do
  let old ← oldDigest key
  if old = none then return false
  else
    let same ← unchanged key prior
    if same = false then return false
    else
      withLock (.content (h.contentStripe digest)) do
        let provided ← provide digest size upload
        if provided = false then return false else pointTo h key digest size prior

def install (key : K) (digest : D) (size : ℕ) (prior : Option (ObjectInfo D E))
    (upload : Mutation K D E) : Call K D E Bool :=
  withLock (.target (h.targetStripe key)) (installLocked h key digest size prior upload)

def putRaw (key : K) (data : Content) : Call K D E Bool :=
  withLock (.target (h.targetStripe key)) do
    let old ← oldDigest key
    if old = none then return false
    else
      let _ : Unit ← ask (.remove key)
      let written : Option ℤ ← ask (.mutate (.putObject key data))
      match written with
      | none => return false
      | some now =>
        let _ : Unit ← ask (.put key ⟨none, h.etag data, data.length, data.length, now, false,
          false, true⟩)
        return true

def installData (key : K) (data : Content) : Call K D E Bool :=
  install h key (h.sum data) data.length none (.putPayload (h.sum data) data)

def putFile (key : K) (data : Content) : Call K D E Bool :=
  if data.length < dedupMinimumSize then putRaw h key data else installData h key data

/-- `data` is what was read of the stream, `size` what it was said to have. -/
def putStream (key : K) (data : Content) (size : Option ℕ) : Call K D E Bool :=
  if size.any fun size => decide (size < dedupMinimumSize) then putRaw h key data
  else do
    let staged : Option ℤ ← ask (.mutate .stage)
    if staged = none ∨ size.any (fun n => decide (n ≠ data.length)) then return false
    -- from the staged object, as it is done from a file
    else putFile h key data

def deleteObject (key : K) : Call K D E Bool :=
  withLock (.target (h.targetStripe key)) do
    let old ← oldDigest key
    if old = none then return false
    else
      let _ : Unit ← ask (.remove key)
      let removed : Option ℤ ← ask (.mutate (.removeObject key))
      return removed.isSome

def deduplicateKnown (key : K) (record : S3Record D E) : Call K D E Bool :=
  match record.digest with
  | none => return true
  | some digest =>
    if record.verified = false ∨ record.reference = true ∨ record.size < dedupMinimumSize then
      return true
    else
      install h key digest record.size (some record.objectInfo)
        (.copyObject key record.etag digest)

/-- `s3LearningReader`; its hasher has what the stream has delivered. -/
structure LearningReader (D E : Type) where
  record : S3Record D E
  read : ℕ
  disabled : Bool

def trackRead (key : K) (logical : ObjectInfo D E) : Call K D E (Option (LearningReader D E)) :=
  if logical.size < dedupMinimumSize then return none
  else do
    let known : Option (S3Record D E) ← ask (.get key)
    match known with
    | none => return none
    | some record =>
      return if record.reference ∨ record.digest.isSome then none else some ⟨record, 0, false⟩

/-- The digest goes to the record that the key has by then. -/
def learn (key : K) (record : S3Record D E) (seen : Content) : Call K D E Unit := do
  let known : Option (S3Record D E) ← ask (.get key)
  match known with
  | none => return ()
  | some current =>
    if current.etag = record.etag ∧ current.size = record.size then
      let _ : Unit ← ask (.put key { current with digest := some (h.sum seen) })
      return ()
    else return ()

def LearningReader.deliver (key : K) (r : LearningReader D E) (x : Delivered) :
    Call K D E (LearningReader D E) :=
  if r.disabled then return r
  else if r.read + x.n = r.record.size then do
    let _ : Unit ← learn h key r.record x.seen
    return { r with read := r.read + x.n, disabled := true }
  else if x.failed then do
    let _ : Unit ← ask (.remove key)
    return { r with read := r.read + x.n, disabled := true }
  else return { r with read := r.read + x.n }

inductive ReadCall where
  | read
  | readAt
  deriving DecidableEq

def readAll (key : K) : List ReadCall → LearningReader D E → Call K D E Unit
  | [], _ => return ()
  | .readAt :: calls, r => readAll key calls { r with disabled := true }
  | .read :: calls, r => do
    let x : Delivered ← ask .read
    let r ← r.deliver h key x
    readAll key calls r

/-- `DownloadFromS3Direct`, and what its caller reads. The object is fetched by the first read. -/
def download (key : K) (calls : List ReadCall) : Call K D E Bool := do
  let resolved ← resolve key
  match resolved with
  | none => return false
  | some (physical, logical) =>
    let tracked ← trackRead key logical
    match tracked with
    | none => return true
    | some reader =>
      let _ : Bool ← ask (.fetch physical)
      let _ : Unit ← readAll h key calls reader
      return true

inductive Op (K D E : Type) where
  | putFile (key : K) (data : Content)
  | putStream (key : K) (data : Content) (size : Option ℕ)
  | putRaw (key : K) (data : Content)
  | delete (key : K)
  | deduplicateKnown (key : K) (record : S3Record D E)
  | download (key : K) (calls : List ReadCall)
  deriving DecidableEq

def body : Op K D E → Call K D E Bool
  | .putFile key data => putFile h key data
  | .putStream key data size => putStream h key data size
  | .putRaw key data => putRaw h key data
  | .delete key => deleteObject h key
  | .deduplicateKnown key record => deduplicateKnown h key record
  | .download key calls => download h key calls

/-- A record to deduplicate is one that the index has. -/
def begin (id : ℕ) (op : Op K D E) (s : Store K D E) : Option (Store K D E) :=
  match op with
  | .deduplicateKnown key record =>
    if s.index.load key = some record then
      some { s with streams := Function.update s.streams id none }
    else none
  | _ => some { s with streams := Function.update s.streams id none }

/-- The index outlives the process, but what it has is not verified then. -/
def restart (s : Store K D E) : Store K D E where
  objects := s.objects
  payloads := s.payloads
  index := s.index.updateWhere (fun _ _ => true) fun _ record => { record with verified := false }
  held _ := false
  streams _ := none

def service : Interleaving.Service (Request K D E) Response Bool (Store K D E) Choice (Op K D E) where
  body _ := body h
  begin := begin
  serve := serve h
  restart := restart

/-- The bytes that a key stands for, those of its payload where it refers to one. -/
def Store.denotes (s : Store K D E) (key : K) : Option Content :=
  (s.objects key).bind fun o =>
    match (o.info h).reference with
    | none => none
    | some (none, _) => some o.body
    | some (some digest, _) => s.payloads digest

end RenoP.Artifacts.S3
