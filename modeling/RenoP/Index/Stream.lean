import RenoP.Index.Bookkeeping
import RenoP.Index.References

/-!
# The persisted index (internal/service/index/stream.go)

The stream is a header with the version and one record for each entry: files that are not
blocked, directories, and in the persistent form content records and garbage, each section in
the order of a range over its map. Reading replays the records through the ordinary operations.
What JSON does to single strings and numbers is taken as lossless; the fields that the JSON form
leaves out (`Revision`, `Verified`) come back as zero values.
-/

namespace RenoP.Index

open SlashPath

inductive RecordKind where
  | file
  | dir
  | content
  | contentGarbage
  | unknown
  deriving DecidableEq, Repr

structure IndexStreamRecord where
  kind : RecordKind
  path : Path
  file : Option FileInfo := none
  content : Option ContentInfo := none
  since : ℤ := 0
  deriving Repr

structure IndexStream where
  version : ℕ
  records : List IndexStreamRecord

def FileInfo.json (info : FileInfo) : FileInfo := { info with revision := 0 }

def ContentInfo.json (info : ContentInfo) : ContentInfo := { info with verified := false }

structure StreamOrders where
  files : GoMap.RangeOrder Path FileInfo
  dirs : GoMap.RangeOrder Path Bool
  contents : GoMap.RangeOrder Key ContentInfo
  contentGarbage : GoMap.RangeOrder Key ℤ

namespace FileIndex

def fileRecord (idx : FileIndex) (path : Path) : Option IndexStreamRecord :=
  if idx.isBlocked path then none
  else (idx.files.load path).map fun info =>
    { kind := .file, path := path, file := some info.json }

def dirRecord (path : Path) : IndexStreamRecord := { kind := .dir, path := path }

def contentRecord (idx : FileIndex) (key : Key) : Option IndexStreamRecord :=
  (idx.contents.load key).map fun info =>
    { kind := .content, path := key, content := some info.json }

def garbageRecord (idx : FileIndex) (key : Key) : Option IndexStreamRecord :=
  (idx.contentGarbage.load key).map fun since =>
    { kind := .contentGarbage, path := key, since := since }

/-- stream.go:31-69, where no write fails. -/
def writeJSONStream (idx : FileIndex) (o : StreamOrders) (persistent : Bool) : IndexStream where
  version := 2
  records := (o.files.keys idx.files).filterMap idx.fileRecord ++
    ((o.dirs.keys idx.dirs).map dirRecord ++
      if persistent then
        (o.contents.keys idx.contents).filterMap idx.contentRecord ++
          (o.contentGarbage.keys idx.contentGarbage).filterMap idx.garbageRecord
      else [])

def writePersistentJSONTo (idx : FileIndex) (o : StreamOrders) : IndexStream :=
  idx.writeJSONStream o true

/-- One turn of `readJSONStream`; `now` is the clock that a replaced content record reads. -/
def readRecord (idx : FileIndex) (record : IndexStreamRecord) (now : ℤ) :
    Except String FileIndex :=
  if record.path = [] then .error "index record requires a path"
  else
    match record.kind with
    | .file =>
      match record.file with
      | none => .error "index file record requires metadata"
      | some info => .ok (idx.insertFile record.path info)
    | .dir => .ok (idx.insertDir record.path)
    | .content =>
      match record.content with
      | none => .error "index content record requires metadata"
      | some info => .ok (idx.putContent record.path info now)
    | .contentGarbage => .ok (idx.markContentGarbage record.path record.since)
    | .unknown => .error "unknown index record kind"

/-- stream.go:71-99; `clock n` is read before the last `n` records. -/
def readJSONStream (clock : ℕ → ℤ) (idx : FileIndex) :
    List IndexStreamRecord → Except String FileIndex
  | [] => .ok idx
  | record :: records =>
    match readRecord idx record (clock records.length) with
    | .error e => .error e
    | .ok idx => readJSONStream clock idx records

/-- models.go:54-110 for a root object that holds a version. -/
def readJSONFrom (clock : ℕ → ℤ) (idx : FileIndex) (stream : IndexStream) :
    Except String FileIndex :=
  if stream.version ≠ 2 then .error "unsupported index stream version"
  else readJSONStream clock idx stream.records

inductive Call where
  | tree (op : Op)
  | content (op : ContentOp)
  deriving Repr

def call (idx : FileIndex) : Call → FileIndex
  | .tree op => idx.step op
  | .content op => idx.contentStep op

def calls (idx : FileIndex) (cs : List Call) : FileIndex := cs.foldl call idx

end FileIndex

end RenoP.Index
