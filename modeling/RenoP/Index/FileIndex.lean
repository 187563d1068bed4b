import RenoP.Lib.GoMap
import RenoP.Lib.SlashPath

/-!
# The repository file index (internal/service/index/models.go)

`FileIndex` holds the files and directories of the storage tree, the set of blocked paths, a
child list for each directory, three counters, and the content records of content.go. Paths are
slash paths: `toSlashFast` and `filepath.ToSlash` leave them alone and are not written. The
negative cache is left out: nothing that is modelled reads it. Every operation holds
`mutationMu`, so one call is one step; counters are unbounded integers.
-/

namespace RenoP.Index
open SlashPath

structure FileInfo where
  size : ℤ := 0
  modTime : ℤ := 0
  revision : ℕ := 0
  deriving DecidableEq, Repr

def sameFileMetadata (a b : FileInfo) : Bool := a.size == b.size && a.modTime == b.modTime

/-- A key of the content maps, `scope + "\x00" + name`. -/
abbrev Key := List Char

/-- `ContentInfo` (content.go:23-32). -/
structure ContentInfo where
  digest : List Char := []
  etag : List Char := []
  size : ℤ := 0
  objectSize : ℤ := 0
  modTime : ℤ := 0
  reference : Bool := false
  preservedTime : Bool := false
  verified : Bool := false
  deriving DecidableEq, Repr

/-- `FileIndex` (models.go:204-228) without its locks and its negative cache. -/
structure FileIndex where
  contents : GoMap Key ContentInfo
  contentRefs : GoMap Key ℤ
  contentVerifiedRefs : GoMap Key ℤ
  contentGarbage : GoMap Key ℤ
  files : GoMap Path FileInfo
  dirs : GoMap Path Bool
  blocked : GoMap Path Bool
  children : GoMap Path (List Path)
  filesCount : ℤ
  dirsCount : ℤ
  totalBytes : ℤ
  fileRevision : ℕ
  isDirty : Bool

def newFileIndex : FileIndex where
  contents := ∅
  contentRefs := ∅
  contentVerifiedRefs := ∅
  contentGarbage := ∅
  files := ∅
  dirs := ∅
  blocked := ∅
  children := ∅
  filesCount := 0
  dirsCount := 0
  totalBytes := 0
  fileRevision := 0
  isDirty := false

namespace FileIndex

def isBlocked (idx : FileIndex) (p : Path) : Bool :=
  if p = [] then false else idx.blocked.has p

def hasFile (idx : FileIndex) (p : Path) : Bool :=
  if idx.isBlocked p then false else idx.files.has p

def hasDir (idx : FileIndex) (p : Path) : Bool := idx.dirs.has p

def getFileInfo (idx : FileIndex) (p : Path) : Option FileInfo :=
  if idx.isBlocked p then none else idx.files.load p

def getChildren (idx : FileIndex) (p : Path) : List Path :=
  (idx.children.load (clean p)).getD []

/-- Text before and after the last slash (models.go:234-243). -/
def splitPathParentBase (p : Path) : Path × Path :=
  match cutLast p with
  | none => ([], p)
  | some ([], base) => (['/'], base)
  | some (parent, base) => (parent, base)

def Tracked (parent : Path) : Prop := parent ≠ dot ∧ parent ≠ ['/'] ∧ parent ≠ []

instance (p : Path) : Decidable (Tracked p) := inferInstanceAs (Decidable (_ ∧ _))

def addChild (idx : FileIndex) (p : Path) : FileIndex :=
  let (parent, base) := splitPathParentBase p
  if parent = p ∨ ¬ Tracked parent then idx
  else
    let list := (idx.children.load parent).getD []
    if base ∈ list then idx
    else { idx with children := idx.children.store parent (list ++ [base]) }

/-- Also drops the child list of the removed path itself (models.go:298). -/
def removeChild (idx : FileIndex) (p : Path) : FileIndex :=
  let (parent, base) := splitPathParentBase p
  let children :=
    match idx.children.load parent with
    | some list =>
      let list := list.erase base
      if list = [] then idx.children.delete parent else idx.children.store parent list
    | none => idx.children
  { idx with children := children.delete p }

def deleteFile (idx : FileIndex) (p : Path) : FileIndex × Bool :=
  match idx.files.load p with
  | none => (idx, false)
  | some old =>
    (removeChild { idx with
      files := idx.files.delete p
      filesCount := idx.filesCount - 1
      totalBytes := idx.totalBytes - old.size } p, true)

def dropFile (idx : FileIndex) (p : Path) : FileIndex :=
  let (idx, gone) := deleteFile idx p
  if gone then { idx with isDirty := true } else idx

/-- `idx.Dirs.LoadAndDelete(p)` of a present directory, with its `DirsCount` step. -/
def dropDir (idx : FileIndex) (p : Path) : FileIndex :=
  { idx with dirs := idx.dirs.delete p, dirsCount := idx.dirsCount - 1 }

/-- One child of the loop of `removeDescendants`; `purge` is the recursive call. -/
def removeDescendant (purge : FileIndex → Path → FileIndex) (dirCleaned : Path)
    (idx : FileIndex) (child : Path) : FileIndex :=
  let childPath := dirCleaned ++ '/' :: child
  let idx := dropFile idx childPath
  if idx.dirs.has childPath then removeChild (purge (dropDir idx childPath) childPath) childPath
  else idx

/-- models.go:528-543; a nested call finds one directory less, which `fuel` counts. -/
def removeDescendantsFuel : ℕ → FileIndex → Path → FileIndex
  | 0, idx, _ => idx
  | fuel + 1, idx, p =>
    let dirCleaned := clean p
    (idx.getChildren dirCleaned).foldl (removeDescendant (removeDescendantsFuel fuel) dirCleaned) idx

def removeDescendants (idx : FileIndex) (p : Path) : FileIndex :=
  removeDescendantsFuel (idx.dirs.size + 1) idx p

/-- A new file replaces a directory and what is listed below it (models.go:304-334). -/
def putFile (idx : FileIndex) (p : Path) (info : FileInfo) : FileIndex :=
  if idx.isBlocked p then idx
  else
    let info := { info with revision := idx.fileRevision + 1 }
    let idx := { idx with fileRevision := idx.fileRevision + 1 }
    let idx :=
      if idx.dirs.has p then
        { removeChild (removeDescendants (dropDir idx p) p) p with isDirty := true }
      else idx
    match idx.files.load p with
    | none =>
      addChild { idx with
        files := idx.files.store p info
        filesCount := idx.filesCount + 1
        totalBytes := idx.totalBytes + info.size
        isDirty := true } p
    | some old =>
      addChild { idx with
        files := idx.files.store p info
        totalBytes := idx.totalBytes + (info.size - old.size)
        isDirty := idx.isDirty || !sameFileMetadata old info } p

def putDir (idx : FileIndex) (p : Path) : FileIndex :=
  if idx.files.has p then idx
  else if idx.dirs.has p then idx
  else
    addChild { idx with
      dirs := idx.dirs.store p true
      dirsCount := idx.dirsCount + 1
      isDirty := true } p

def insertFile (idx : FileIndex) (p : Path) (info : FileInfo) : FileIndex :=
  if idx.isBlocked p then idx else putFile idx p info

def insertDir (idx : FileIndex) (p : Path) : FileIndex := putDir idx p

def removeFile (idx : FileIndex) (p : Path) : FileIndex := dropFile idx p

/-- The descendants go first, while the child list still names them (models.go:512-519). -/
def removeDir (idx : FileIndex) (p : Path) : FileIndex :=
  let idx := removeDescendants idx p
  let idx := if idx.dirs.has p then { dropDir idx p with isDirty := true } else idx
  removeChild idx p

def blockFile (idx : FileIndex) (p : Path) : FileIndex :=
  if p = [] then idx else dropFile { idx with blocked := idx.blocked.store p true } p

def unblockFile (idx : FileIndex) (p : Path) : FileIndex :=
  if p = [] then idx else { idx with blocked := idx.blocked.delete p }

def unblockTree (idx : FileIndex) (p : Path) : FileIndex :=
  if p = [] then idx
  else
    let p := clean p
    { idx with
      blocked := idx.blocked.keys.foldl
        (fun blocked key =>
          if key = p ∨ (p ++ ['/']) <+: key then blocked.delete key else blocked) idx.blocked }

/-- The parents met before an indexed directory, nearest first (models.go:593-605). -/
def pathsToInsert (idx : FileIndex) : ℕ → Path → List Path
  | 0, _ => []
  | fuel + 1, current =>
    let parent := dir current
    if parent = current ∨ ¬ Tracked parent then []
    else if idx.hasDir parent then []
    else parent :: pathsToInsert idx fuel parent

def ensureParentDirs (idx : FileIndex) (p : Path) : FileIndex :=
  (pathsToInsert idx (p.length + 1) p).foldl insertDir idx

def traverseChildren {σ : Type} (traverse : Path → σ → Option (σ × Bool)) (current : Path) :
    List Path → σ → Option (σ × Bool)
  | [], s => some (s, true)
  | child :: rest, s =>
    match traverse (join current child) s with
    | some (s, true) => traverseChildren traverse current rest s
    | r => r

/-- models.go:723-742; `none` is a walk that has not ended within the fuel. -/
def traverse {σ : Type} (idx : FileIndex) (walkFn : σ → Path → FileInfo → Bool → σ × Bool) :
    ℕ → Path → σ → Option (σ × Bool)
  | 0, _, _ => none
  | fuel + 1, current, s =>
    match idx.getFileInfo current with
    | some info => some (walkFn s current info false)
    | none =>
      if idx.hasDir current then
        let (s, go) := walkFn s current {} true
        if go then traverseChildren (traverse idx walkFn fuel) current (idx.getChildren current) s
        else some (s, false)
      else some (s, true)

def walk {σ : Type} (idx : FileIndex) (fuel : ℕ) (root : Path)
    (walkFn : σ → Path → FileInfo → Bool → σ × Bool) (s : σ) : Option (σ × Bool) :=
  traverse idx walkFn fuel (clean root) s

inductive Op where
  | insertFile (p : Path) (info : FileInfo)
  | insertDir (p : Path)
  | removeFile (p : Path)
  | removeDir (p : Path)
  | blockFile (p : Path)
  | unblockFile (p : Path)
  | unblockTree (p : Path)
  | ensureParentDirs (p : Path)
  deriving Repr

def Op.path : Op → Path
  | .insertFile p _ | .insertDir p | .removeFile p | .removeDir p | .blockFile p
  | .unblockFile p | .unblockTree p | .ensureParentDirs p => p

def step (idx : FileIndex) : Op → FileIndex
  | .insertFile p info => idx.insertFile p info
  | .insertDir p => idx.insertDir p
  | .removeFile p => idx.removeFile p
  | .removeDir p => idx.removeDir p
  | .blockFile p => idx.blockFile p
  | .unblockFile p => idx.unblockFile p
  | .unblockTree p => idx.unblockTree p
  | .ensureParentDirs p => idx.ensureParentDirs p

def run (idx : FileIndex) (ops : List Op) : FileIndex := ops.foldl step idx

end FileIndex

end RenoP.Index

/-!
## Content references of the index (internal/service/index/content.go)

The two counter maps are kept beside the records; a digest whose last reference goes is put in the
garbage set with the time of the drop (`now`, the reading of `time.Now().Unix()`). Each call holds
`contentMu`, so one call is one step.
-/

namespace RenoP.Index.FileIndex

/-- `scope + "\x00" + digest`, the scope being what stands before the first NUL of the key. -/
def contentDigestKey (key : Key) (digest : List Char) : Key :=
  key.takeWhile (· ≠ '\x00') ++ '\x00' :: digest

def isReference (value : ContentInfo) : Bool := value.reference && decide (value.digest ≠ [])

def getContent (idx : FileIndex) (key : Key) : Option ContentInfo := idx.contents.load key

def dropContentReference (idx : FileIndex) (key : Key) (value : ContentInfo) (now : ℤ) :
    FileIndex :=
  if !isReference value then idx
  else
    let digestKey := contentDigestKey key value.digest
    let idx := { idx with
      contentRefs := idx.contentRefs.decr digestKey
      contentVerifiedRefs :=
        if value.verified then idx.contentVerifiedRefs.decr digestKey
        else idx.contentVerifiedRefs }
    -- `decr` has deleted the key when the counter came down to zero
    if idx.contentRefs.counter digestKey ≤ 0 then
      { idx with contentGarbage := idx.contentGarbage.store digestKey now }
    else idx

def addContent (idx : FileIndex) (key : Key) (value : ContentInfo) : FileIndex :=
  let idx := { idx with contents := idx.contents.store key value, isDirty := true }
  if isReference value then
    let digestKey := contentDigestKey key value.digest
    { idx with
      contentRefs := idx.contentRefs.incr digestKey
      contentVerifiedRefs :=
        if value.verified then idx.contentVerifiedRefs.incr digestKey
        else idx.contentVerifiedRefs
      contentGarbage := idx.contentGarbage.delete digestKey }
  else idx

/-- content.go:46-70. -/
def putContent (idx : FileIndex) (key : Key) (value : ContentInfo) (now : ℤ) : FileIndex :=
  match idx.contents.load key with
  | some old =>
    if old = value then idx else addContent (dropContentReference idx key old now) key value
  | none => addContent idx key value

def removeContent (idx : FileIndex) (key : Key) (now : ℤ) : FileIndex :=
  match idx.contents.load key with
  | some value =>
    { dropContentReference { idx with contents := idx.contents.delete key } key value now with
      isDirty := true }
  | none => idx

def removeContentIfMatch (idx : FileIndex) (key : Key) (expected : ContentInfo) (now : ℤ) :
    FileIndex :=
  match idx.contents.load key with
  | some current => if current = expected then removeContent idx key now else idx
  | none => idx

def hasContent (idx : FileIndex) (digestKey : Key) : Bool :=
  decide (0 < idx.contentVerifiedRefs.counter digestKey)

def markContentGarbage (idx : FileIndex) (key : Key) (since : ℤ) : FileIndex :=
  if 0 < idx.contentRefs.counter key then idx
  else
    match idx.contentGarbage.load key with
    | some previous =>
      if since > previous then
        { idx with contentGarbage := idx.contentGarbage.store key since, isDirty := true }
      else idx
    | none => { idx with contentGarbage := idx.contentGarbage.store key since, isDirty := true }

def ensureContentGarbage (idx : FileIndex) (key : Key) (since : ℤ) : FileIndex :=
  if 0 < idx.contentRefs.counter key then idx
  else if idx.contentGarbage.has key then idx
  else { idx with contentGarbage := idx.contentGarbage.store key since, isDirty := true }

def forgetContentGarbage (idx : FileIndex) (key : Key) (expected : ℤ) : FileIndex :=
  if idx.contentGarbage.load key = some expected then
    { idx with contentGarbage := idx.contentGarbage.delete key, isDirty := true }
  else idx

inductive ContentOp where
  | putContent (key : Key) (value : ContentInfo) (now : ℤ)
  | removeContent (key : Key) (now : ℤ)
  | removeContentIfMatch (key : Key) (expected : ContentInfo) (now : ℤ)
  | markContentGarbage (key : Key) (since : ℤ)
  | ensureContentGarbage (key : Key) (since : ℤ)
  | forgetContentGarbage (key : Key) (expected : ℤ)
  deriving Repr

def contentStep (idx : FileIndex) : ContentOp → FileIndex
  | .putContent key value now => idx.putContent key value now
  | .removeContent key now => idx.removeContent key now
  | .removeContentIfMatch key expected now => idx.removeContentIfMatch key expected now
  | .markContentGarbage key since => idx.markContentGarbage key since
  | .ensureContentGarbage key since => idx.ensureContentGarbage key since
  | .forgetContentGarbage key expected => idx.forgetContentGarbage key expected

def contentRun (idx : FileIndex) (ops : List ContentOp) : FileIndex := ops.foldl contentStep idx

end RenoP.Index.FileIndex
