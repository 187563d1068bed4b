import RenoP.Lib.Inodes
import RenoP.Lib.Interleaving

/-!
# The content store on disk

`Disk` of `internal/artifactstore/disk.go` and `SafeRename` of `internal/utils/path.go`. Every call
of the operating system is one step that may fail, and calls of the store run side by side.
-/

namespace RenoP.Artifacts

variable {P : Type}

abbrev Bytes := List UInt8

/-- The paths of files, and names that belong to one staged file or one call: a temporary link,
the file that `WriteFile` stages, and the copy that `copyAndReplace` makes. -/
inductive Name (P : Type) where
  | path (p : P)
  | staged (n : ℕ)
  | linked (id : ℕ)
  | content (id : ℕ)
  | copy (id : ℕ)
  deriving DecidableEq

/-- `crypto/sha256`, taken as free of collisions. -/
structure Hash where
  sum : Bytes → List UInt8
  injective : ∀ a b, sum a = sum b → a = b

structure ContentKey where
  digest : List UInt8
  mode : ℕ
  deriving DecidableEq

def candidatesPerShard : ℕ := 256

def ContentKey.shard (key : ContentKey) : ℕ := (key.digest.headD 0).toNat % 64

structure Write (P : Type) where
  id : ℕ
  path : P
  data : Option Bytes
  isMutable : Bool

/-- The disk and the hints. The rest follows what the calls do: `asked` is what a call is to
install, `writes` the newest first, `kept` the calls with a removal that failed. -/
structure Store (P : Type) where
  disk : Inodes (Name P)
  hints : ℕ → GoMap ContentKey P
  locked : ℕ → Bool
  initial : P → Option Bytes
  asked : ℕ → Option Bytes
  writes : List (Write P)
  kept : List ℕ

inductive Kind where
  | commit
  | commitMutable
  | reuse
  deriving DecidableEq

inductive Request (P : Type) where
  | fingerprint (name : Name P)
  | mkdirAll
  | lock (key : ContentKey)
  | tryLock (key : ContentKey)
  | unlock (key : ContentKey)
  | candidate (key : ContentKey)
  | setCandidate (key : ContentKey) (target : P)
  | addCandidate (key : ContentKey) (target : P)
  | stat (name : Name P)
  | link (candidate : P)
  | rename (kind : Kind) (old : Name P) (target : P)
  | remove (name : Name P)
  | removePath (p : P)
  | openFile (name : Name P)
  | create (name : Name P) (mode : ℕ)
  | write (name : Name P) (data : Bytes)
  | copy (inode : ℕ) (name : Name P)

inductive Renamed where
  | ok
  | notExist
  | failed
  deriving DecidableEq

def Response : Request P → Type
  | .fingerprint _ => Option ContentKey
  | .lock _ | .unlock _ | .setCandidate .. | .addCandidate .. => Unit
  | .candidate _ => Option P
  | .stat _ | .openFile _ => Option ℕ
  | .rename .. => Renamed
  | _ => Bool

/-- How a step goes: `short` writes so many bytes before it fails. -/
inductive Choice where
  | ok
  | missing
  | failed
  | short (n : ℕ)
  deriving DecidableEq

variable [DecidableEq P] (hash : Hash)

def fingerprintOf (disk : Inodes (Name P)) (name : Name P) : Option ContentKey :=
  (disk.names name).map fun i => ⟨hash.sum (disk.bytes i), disk.mode i⟩

/-- A new file under a name that is free, `os.O_CREATE|os.O_EXCL`. -/
def createNew (disk : Inodes (Name P)) (name : Name P) (mode : ℕ) : Option (Inodes (Name P)) :=
  if disk.names name = none then some (disk.openCreate name mode).2 else none

def fill (disk : Inodes (Name P)) (name : Name P) (data : Bytes) : Inodes (Name P) :=
  match disk.names name with
  | some i => { disk with bytes := Function.update disk.bytes i data }
  | none => disk

def addHint (hints : GoMap ContentKey P) (key : ContentKey) (target : P) : GoMap ContentKey P :=
  if candidatesPerShard ≤ hints.size then (∅ : GoMap ContentKey P).store key target
  else hints.store key target

def Store.setHints (s : Store P) (key : ContentKey) (hints : GoMap ContentKey P) : Store P :=
  { s with hints := Function.update s.hints key.shard hints }

def Store.setLocked (s : Store P) (key : ContentKey) (locked : Bool) : Store P :=
  { s with locked := Function.update s.locked key.shard locked }

/-- The writes once a name stands under a path. `ReuseExisting` does not count as one. -/
def noteRename (id : ℕ) (s : Store P) (old : Name P) (target : P) : Kind → List (Write P)
  | .commit => ⟨id, target, s.disk.read old, false⟩ :: s.writes
  | .commitMutable => ⟨id, target, s.disk.read old, true⟩ :: s.writes
  | .reuse => s.writes

def serve (id : ℕ) : (r : Request P) → Choice → Store P → Option (Store P × Response r)
  | .fingerprint name, .ok, s => some (s, fingerprintOf hash s.disk name)
  | .fingerprint _, .failed, s => some (s, none)
  | .mkdirAll, .ok, s => some (s, true)
  | .mkdirAll, .failed, s => some (s, false)
  | .lock key, .ok, s => if s.locked key.shard then none else some (s.setLocked key true, ())
  | .tryLock key, .ok, s =>
    if s.locked key.shard then some (s, false) else some (s.setLocked key true, true)
  | .unlock key, .ok, s => some (s.setLocked key false, ())
  | .candidate key, .ok, s => some (s, (s.hints key.shard).load key)
  | .setCandidate key target, .ok, s =>
    some (s.setHints key ((s.hints key.shard).store key target), ())
  | .addCandidate key target, .ok, s =>
    some (s.setHints key (addHint (s.hints key.shard) key target), ())
  | .stat name, .ok, s => some (s, s.disk.names name)
  | .stat _, .failed, s => some (s, none)
  | .link candidate, .ok, s =>
    (s.disk.link (.path candidate) (.linked id)).map fun disk => ({ s with disk := disk }, true)
  | .link _, .failed, s => some (s, false)
  | .rename kind old target, .ok, s =>
    (s.disk.rename old (.path target)).map fun disk =>
      ({ s with disk := disk, writes := noteRename id s old target kind }, .ok)
  | .rename .., .missing, s => some (s, .notExist)
  | .rename .., .failed, s => some (s, .failed)
  | .remove name, .ok, s => some ({ s with disk := s.disk.remove name }, true)
  | .remove _, .failed, s => some ({ s with kept := id :: s.kept }, false)
  | .removePath p, .ok, s =>
    some ({ s with
      disk := s.disk.remove (.path p)
      writes := ⟨id, p, none, false⟩ :: s.writes }, true)
  | .removePath _, .failed, s => some (s, false)
  | .openFile name, .ok, s => some (s, s.disk.names name)
  | .openFile _, .failed, s => some (s, none)
  | .create name mode, .ok, s =>
    (createNew s.disk name mode).map fun disk => ({ s with disk := disk }, true)
  | .create .., .failed, s => some (s, false)
  | .write name data, .ok, s => some ({ s with disk := fill s.disk name data }, true)
  | .write name data, .short n, s => some ({ s with disk := fill s.disk name (data.take n) }, false)
  | .copy inode name, .ok, s =>
    some ({ s with disk := fill s.disk name (s.disk.bytes inode) }, true)
  | .copy inode name, .short n, s =>
    some ({ s with disk := fill s.disk name ((s.disk.bytes inode).take n) }, false)
  | _, _, _ => none

abbrev Call (P : Type) := Process (Request P) Response

def ask (r : Request P) : Call P (Response r) := Process.call r

def remove (name : Name P) : Call P Bool := ask (.remove name)

def copyAttempts (id : ℕ) (kind : Kind) (target : P) : ℕ → Call P Bool
  | 0 => return false
  | attempts + 1 => do
    let renamed : Renamed ← ask (.rename kind (.copy id) target)
    if renamed = .ok then return true else copyAttempts id kind target attempts

def installCopy (id : ℕ) (kind : Kind) (target : P) (copied : Bool) : Call P Bool :=
  if copied then copyAttempts id kind target 8 else return false

def copyAndReplace (id : ℕ) (kind : Kind) (old : Name P) (target : P) : Call P Bool := do
  let source : Option ℕ ← ask (.openFile old)
  match source with
  | none => return false
  | some inode =>
    let created : Bool ← ask (.create (.copy id) 384)
    if created = false then return false
    else
      let copied : Bool ← ask (.copy inode (.copy id))
      let renamed ← installCopy id kind target copied
      let _ ← remove (.copy id)
      return renamed

def renameByCopy (id : ℕ) (kind : Kind) (old : Name P) (target : P) : Call P Bool := do
  let found : Option ℕ ← ask (.stat old)
  if found = none then return false
  else
    let replaced ← copyAndReplace id kind old target
    if replaced = false then return false
    else
      let _ ← remove old
      return true

def renameAttempts (id : ℕ) (kind : Kind) (old : Name P) (target : P) : ℕ → Call P Bool
  | 0 => renameByCopy id kind old target
  | attempts + 1 => do
    let renamed : Renamed ← ask (.rename kind old target)
    match renamed with
    | .ok => return true
    | .notExist => return false
    | .failed => renameAttempts id kind old target attempts

def safeRename (id : ℕ) (kind : Kind) (old : Name P) (target : P) : Call P Bool := do
  let made : Bool ← ask .mkdirAll
  if made = false then return false else renameAttempts id kind old target 8

def addCandidate (key : ContentKey) (target : P) : Call P Unit :=
  ask (.addCandidate key target)

def installStaged (id : ℕ) (key : ContentKey) (staged : Name P) (target : P) : Call P Bool := do
  let renamed ← safeRename id .commit staged target
  if renamed = false then return false
  else
    addCandidate key target
    return true

def installLinked (id : ℕ) (key : ContentKey) (staged : Name P) (target : P) : Call P Bool := do
  let renamed ← safeRename id .commit (.linked id) target
  let _ ← remove (.linked id)
  if renamed = false then return false
  else
    let _ ← remove staged
    let _ : Unit ← ask (.setCandidate key target)
    return true

def commitLocked (id : ℕ) (key : ContentKey) (staged : Name P) (target : P) : Call P Bool := do
  let hint : Option P ← ask (.candidate key)
  match hint with
  | none => installStaged id key staged target
  | some candidate =>
    let linked : Bool ← ask (.link candidate)
    if linked = false then installStaged id key staged target
    else
      let actual : Option ContentKey ← ask (.fingerprint (.linked id))
      if actual = some key then installLinked id key staged target
      else
        let _ ← remove (.linked id)
        installStaged id key staged target

def commit (id : ℕ) (staged : Name P) (target : P) : Call P Bool := do
  let found : Option ContentKey ← ask (.fingerprint staged)
  match found with
  | none => return false
  | some key =>
    let made : Bool ← ask .mkdirAll
    if made = false then return false
    else
      let _ : Unit ← ask (.lock key)
      let installed ← commitLocked id key staged target
      let _ : Unit ← ask (.unlock key)
      return installed

def stageAndCommit (id : ℕ) (path : P) (data : Bytes) (mode : ℕ) : Call P Bool := do
  let created : Bool ← ask (.create (.content id) mode)
  if created = false then return false
  else
    let written : Bool ← ask (.write (.content id) data)
    if written = false then return false else commit id (.content id) path

def writeFile (id : ℕ) (path : P) (data : Bytes) (mode : ℕ) : Call P Bool := do
  let made : Bool ← ask .mkdirAll
  if made = false then return false
  else
    let installed ← stageAndCommit id path data mode
    let _ ← remove (.content id)
    return installed

def commitMutable (id : ℕ) (staged : Name P) (target : P) : Call P Bool :=
  safeRename id .commitMutable staged target

/-- What `ReuseExisting` does with a link to the candidate: the error, or whether the target was
replaced. -/
def reuseLinked (id : ℕ) (key : ContentKey) (target : P) : Call P (Option Bool) := do
  let actual : Option ContentKey ← ask (.fingerprint (.linked id))
  match actual with
  | none => return none
  | some found =>
    if found = key then
      let renamed ← safeRename id .reuse (.linked id) target
      if renamed = false then return none
      else
        let _ : Unit ← ask (.setCandidate key target)
        return some true
    else
      addCandidate key target
      return some false

def reuseCandidate (id : ℕ) (key : ContentKey) (target candidate : P) :
    Call P (Option Bool) := do
  let targetInfo : Option ℕ ← ask (.stat (.path target))
  match targetInfo with
  | none => return none
  | some inode =>
    let candidateInfo : Option ℕ ← ask (.stat (.path candidate))
    if candidateInfo = some inode then return some false
    else
      let linked : Bool ← ask (.link candidate)
      if linked = false then
        addCandidate key target
        return some false
      else
        let result ← reuseLinked id key target
        let _ ← remove (.linked id)
        return result

def reuseLocked (id : ℕ) (key : ContentKey) (target : P) : Call P (Option Bool) := do
  let hint : Option P ← ask (.candidate key)
  match hint with
  | none =>
    addCandidate key target
    return some false
  | some candidate =>
    if candidate = target then
      addCandidate key target
      return some false
    else reuseCandidate id key target candidate

def reuseExisting (id : ℕ) (target : P) : Call P (Option Bool) := do
  let found : Option ContentKey ← ask (.fingerprint (.path target))
  match found with
  | none => return none
  | some key =>
    let free : Bool ← ask (.tryLock key)
    if free = false then return some false
    else
      let result ← reuseLocked id key target
      let _ : Unit ← ask (.unlock key)
      return result

/-- The calls of the store, and what its callers do with their staged files. -/
inductive Op (P : Type) where
  | commit (staged : ℕ) (target : P)
  | writeFile (path : P) (data : Bytes) (mode : ℕ)
  | reuseExisting (target : P)
  | commitMutable (staged : ℕ) (target : P)
  | removeFile (path : P)
  | stage (staged : ℕ) (data : Bytes) (mode : ℕ)
  | discard (staged : ℕ)

def installed (call : Call P Bool) : Call P (Option Bool) := do
  let ok ← call
  return if ok then some true else none

def stage (staged : ℕ) (data : Bytes) (mode : ℕ) : Call P Bool := do
  let created : Bool ← ask (.create (.staged staged) mode)
  if created = false then return false else ask (.write (.staged staged) data)

def body (id : ℕ) : Op P → Call P (Option Bool)
  | .commit staged target => installed (commit id (.staged staged) target)
  | .writeFile path data mode => installed (writeFile id path data mode)
  | .reuseExisting target => reuseExisting id target
  | .commitMutable staged target => installed (commitMutable id (.staged staged) target)
  | .removeFile path => installed (ask (.removePath path))
  | .stage staged data mode => installed (Artifacts.stage staged data mode)
  | .discard staged => installed (remove (.staged staged))

def Op.asks (s : Store P) : Op P → Option Bytes
  | .commit staged _ | .commitMutable staged _ => s.disk.read (.staged staged)
  | .writeFile _ data _ => some data
  | _ => none

def begin (id : ℕ) (op : Op P) (s : Store P) : Option (Store P) :=
  some { s with asked := Function.update s.asked id (op.asks s) }

def disk : Interleaving.Service (Request P) Response (Option Bool) (Store P) Choice (Op P) where
  body := body
  begin := begin
  serve := serve hash
  restart s := { s with hints := fun _ => ∅, locked := fun _ => false }

end RenoP.Artifacts
