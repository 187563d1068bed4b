import RenoP.Lib.Inodes

/-!
# Requests on one staged Docker upload

`HandlePatchUpload` and `HandlePutUpload` of `internal/service/docker/handler.go`, the staged
blobs and `CommitBlob` of `internal/service/storage/docker_store.go` and `Disk.Commit` of
`internal/artifactstore/disk.go`, for any number of requests on one upload of one repository.
The repository gate is held shared, so a step of one request may fall between any two of another.
The mutex of a content shard is left out: it takes orders away and adds none.
-/

namespace RenoP.Docker

abbrev Bytes := List UInt8

inductive Path (D : Type) where
  | staging
  | blob (d : D)
  /-- the name under which the commit of a request links a candidate -/
  | linked (t : ℕ)
  | elsewhere (n : ℕ)
  deriving DecidableEq

structure ContentKey (D : Type) where
  digest : D
  mode : ℕ
  deriving DecidableEq

inductive Status where
  | accepted
  | uploadUnknown
  | uploadInvalid
  | digestInvalid
  | denied
  | failed
  deriving DecidableEq

/-- Where a request stands. From `reserve` on a PUT also carries the bytes that `CommitBlob`
hashed, of which the code keeps the digest only. -/
inductive Pc (D : Type) where
  | idle
  -- HandlePatchUpload
  | patchOpen (body : Bytes)
  | patchSize (handle : ℕ) (body : Bytes)
  | patchWrite (handle off : ℕ) (body : Bytes)
  -- HandlePutUpload
  | putOpen (body : Bytes) (d : D)
  | putSize (handle : ℕ) (body : Bytes) (d : D)
  | putWrite (handle off : ℕ) (body : Bytes) (d : D)
  | putDigest (d : D)
  | discard (status : Status)
  | putMutable (d : D)
  -- CommitBlob
  | commitMutable (d : D)
  | commitStat (d : D)
  | commitHash (d : D)
  | reserve (d : D) (hashed : Bytes)
  -- Disk.Commit
  | fingerprint (d : D) (hashed : Bytes)
  | link (d : D) (hashed : Bytes) (key : ContentKey D)
  | verify (d : D) (hashed : Bytes) (key : ContentKey D)
  | installLinked (d : D) (hashed : Bytes) (key : ContentKey D)
  | removeLinked (d : D) (key : ContentKey D)
  | removeStaged (d : D) (key : ContentKey D)
  | dropLinked (d : D) (hashed : Bytes) (key : ContentKey D)
  | failLinked
  | installStaged (d : D) (hashed : Bytes) (key : ContentKey D)
  | hint (d : D) (key : ContentKey D)
  -- HandlePutUpload again
  | recordBlob (d : D)
  | recordLink (d : D)
  | answered (status : Status)
  | created (d : D)

structure Uploads (D : Type) where
  files : Inodes (Path D)
  hints : ContentKey D → Option (Path D)
  threads : ℕ → Pc D

/-- What a call of the file system or the database answers. A `WriteAt` that fails may have
written the first bytes. -/
inductive Outcome where
  | ok
  | failed (written : ℕ)

inductive Event (D : Type) where
  | patch (t : ℕ) (body : Bytes)
  | put (t : ℕ) (body : Bytes) (d : D)
  | advance (t : ℕ) (outcome : Outcome)
  /-- a full shard drops its hints -/
  | forget (keep : ContentKey D → Bool)

variable {D : Type} [DecidableEq D]

def Uploads.goto (s : Uploads D) (t : ℕ) (pc : Pc D) : Uploads D :=
  { s with threads := Function.update s.threads t pc }

def Uploads.setFiles (s : Uploads D) (files : Inodes (Path D)) : Uploads D :=
  { s with files := files }

/-- `GetStagedBlob`, which creates the file when it is missing. -/
def Uploads.getStagedBlob (s : Uploads D) : Outcome → Option (ℕ × Uploads D)
  | .ok =>
    let opened := s.files.openCreate .staging 0o600
    some (opened.1, s.setFiles opened.2)
  | .failed _ => none

def Uploads.size (s : Uploads D) (handle : ℕ) : Outcome → ℕ
  | .ok => (s.files.bytes handle).length
  | .failed _ => 0

/-- The part of `body` that a `WriteAt` leaves in the file. -/
def Outcome.wrote (body : Bytes) : Outcome → Bytes
  | .ok => body
  | .failed written => body.take written

def Uploads.writeAt (s : Uploads D) (handle off : ℕ) (body : Bytes) (o : Outcome) : Uploads D :=
  s.setFiles (s.files.writeAt handle off (o.wrote body))

/-- The digest of the file behind a name, `none` when it cannot be read. -/
def Uploads.hash (sha : Bytes → D) (s : Uploads D) (p : Path D) : Outcome → Option D
  | .ok => (s.files.read p).map sha
  | .failed _ => none

def Uploads.fingerprint (sha : Bytes → D) (s : Uploads D) (p : Path D) :
    Outcome → Option (ContentKey D)
  | .ok => (s.files.names p).map fun i => ⟨sha (s.files.bytes i), s.files.mode i⟩
  | .failed _ => none

def Uploads.remove (s : Uploads D) (p : Path D) : Outcome → Uploads D
  | .ok => s.setFiles (s.files.remove p)
  | .failed _ => s

def Uploads.rename (s : Uploads D) (p q : Path D) : Outcome → Option (Uploads D)
  | .ok => (s.files.rename p q).map s.setFiles
  | .failed _ => none

/-- `os.Link(candidate, linked)` for the hint of the key. -/
def Uploads.linkCandidate (s : Uploads D) (t : ℕ) (key : ContentKey D) :
    Outcome → Option (Uploads D)
  | .ok => (s.hints key).bind fun candidate =>
      (s.files.link candidate (.linked t)).map s.setFiles
  | .failed _ => none

def Outcome.isOk : Outcome → Bool
  | .ok => true
  | .failed _ => false

/-- The next step of request `t`. -/
def Uploads.advance (sha : Bytes → D) (s : Uploads D) (t : ℕ) (o : Outcome) : Uploads D :=
  match s.threads t with
  | .idle => s
  | .patchOpen body =>
    match s.getStagedBlob o with
    | none => s.goto t (.answered .uploadUnknown)
    | some (handle, s) => s.goto t (.patchSize handle body)
  | .patchSize handle body =>
    if body.length > 0 then s.goto t (.patchWrite handle (s.size handle o) body)
    else s.goto t (.answered .accepted)
  | .patchWrite handle off body =>
    (s.writeAt handle off body o).goto t
      (.answered (if o.isOk then .accepted else .uploadInvalid))
  | .putOpen body d =>
    match s.getStagedBlob o with
    | none => s.goto t (.answered .uploadUnknown)
    | some (handle, s) =>
      if body.length > 0 then s.goto t (.putSize handle body d) else s.goto t (.putDigest d)
  | .putSize handle body d => s.goto t (.putWrite handle (s.size handle o) body d)
  | .putWrite handle off body d =>
    (s.writeAt handle off body o).goto t
      (if o.isOk then .putDigest d else .discard .uploadInvalid)
  | .putDigest d =>
    -- by name: the handle is closed by now
    match s.hash sha .staging o with
    | none => s.goto t (.discard .uploadInvalid)
    | some calculated =>
      if calculated ≠ d then s.goto t (.discard .digestInvalid) else s.goto t (.putMutable d)
  | .discard status => (s.remove .staging o).goto t (.answered status)
  | .putMutable d => s.goto t (if o.isOk then .commitMutable d else .answered .denied)
  | .commitMutable d => s.goto t (if o.isOk then .commitStat d else .answered .failed)
  | .commitStat d =>
    if o.isOk && (s.files.names .staging).isSome then s.goto t (.commitHash d)
    else s.goto t (.answered .failed)
  | .commitHash d =>
    match s.hash sha .staging o, s.files.read .staging with
    | some actual, some hashed =>
      if actual ≠ d then s.goto t (.answered .failed) else s.goto t (.reserve d hashed)
    | _, _ => s.goto t (.answered .failed)
  | .reserve d hashed => s.goto t (if o.isOk then .fingerprint d hashed else .answered .failed)
  | .fingerprint d hashed =>
    match s.fingerprint sha .staging o with
    | none => s.goto t (.answered .failed)
    | some key => s.goto t (.link d hashed key)
  | .link d hashed key =>
    match s.linkCandidate t key o with
    | none => s.goto t (.installStaged d hashed key)
    | some s => s.goto t (.verify d hashed key)
  | .verify d hashed key =>
    if s.fingerprint sha (.linked t) o = some key then s.goto t (.installLinked d hashed key)
    else s.goto t (.dropLinked d hashed key)
  | .installLinked d _ key =>
    match s.rename (.linked t) (.blob d) o with
    | none => s.goto t .failLinked
    | some s => s.goto t (.removeLinked d key)
  | .removeLinked d key => (s.remove (.linked t) o).goto t (.removeStaged d key)
  | .removeStaged d key => (s.remove .staging o).goto t (.hint d key)
  | .dropLinked d hashed key => (s.remove (.linked t) o).goto t (.installStaged d hashed key)
  | .failLinked => (s.remove (.linked t) o).goto t (.answered .failed)
  | .installStaged d _ key =>
    match s.rename .staging (.blob d) o with
    | none => s.goto t (.answered .failed)
    | some s => s.goto t (.hint d key)
  | .hint d key =>
    { s with hints := Function.update s.hints key (some (.blob d)) }.goto t (.recordBlob d)
  | .recordBlob d => s.goto t (if o.isOk then .recordLink d else .answered .failed)
  | .recordLink d => s.goto t (if o.isOk then .created d else .answered .failed)
  | .answered _ => s
  | .created _ => s

def Uploads.receive (s : Uploads D) (t : ℕ) (pc : Pc D) : Uploads D :=
  match s.threads t with
  | .idle => s.goto t pc
  | _ => s

def Uploads.next (sha : Bytes → D) (s : Uploads D) : Event D → Uploads D
  | .patch t body => s.receive t (.patchOpen body)
  | .put t body d => s.receive t (.putOpen body d)
  | .advance t o => s.advance sha t o
  | .forget keep => { s with hints := fun key => if keep key then s.hints key else none }

def Uploads.run (sha : Bytes → D) (s : Uploads D) (es : List (Event D)) : Uploads D :=
  es.foldl (Uploads.next sha) s

structure Uploads.Start (s : Uploads D) : Prop where
  allocated : s.files.Allocated
  idle : ∀ t, s.threads t = .idle

end RenoP.Docker
