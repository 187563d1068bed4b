import RenoP.Index.Frame

/-!
# Streams into the proxy cache (internal/service/proxy/stream.go)

A reader that hands the body of an upstream response to a client and keeps a copy of it in a file
beside the target path. `Close` renames a whole copy to the target path and enters it in the index,
and releases what the request holds.
-/

namespace RenoP.Proxy

open SlashPath (Path)
open RenoP.Index (FileIndex FileInfo)

abbrev Bytes := List UInt8

inductive StreamError where
  | eof
  | upstream
  | responseTooLarge
  | insufficientProxyDiskSpace
  | create
  | write
  | shortWrite
  | closeBody
  | closeFile
  | commit
deriving DecidableEq, Repr

structure StreamConfig where
  targetPath : Path
  expectedSize : ℤ
  maxSize : ℤ
  /-- Which of the pointers are not nil. -/
  permit : Bool := true
  inFlightMgr : Bool := true
  fileIndex : Bool := true

structure Stream where
  /-- What the upstream has not sent yet. -/
  rest : Bytes
  tmpFile : Bool
  writeErr : Option StreamError
  tmpKeep : Bool := false
  permitOnce : Bool := false
  bytesRead : ℤ := 0
  bytesWritten : ℤ := 0
  readEOF : Bool := false
  success : Bool
  closeOnce : Bool := false
  closeErr : Option StreamError := none
  temp : Option Bytes
  target : Option Bytes
  /-- The object that `onSuccess` has moved the target file to. -/
  remote : Option Bytes := none
  index : FileIndex
  permits : ℕ := 0
  unlocked : List Bool := []
  reserved : ℕ := 0
  finished : List Bool := []
  delivered : Bytes := []
  failed : Bool := false

structure Response where
  contentLength : ℤ
  sent : Bytes
  fails : Bool

def maxFastPathSize : ℕ := 128 * 1024

/-- `io.ReadFull` or `io.ReadAll` of a small body: the data, its error and what is left. -/
def Response.fastRead (res : Response) : Bytes × Option StreamError × Bytes :=
  if 0 ≤ res.contentLength ∧ res.contentLength ≤ maxFastPathSize then
    let data := res.sent.take res.contentLength.toNat
    (data,
      if data.length = res.contentLength.toNat then none
      else if data = [] ∧ res.fails = false then some .eof
      else some .upstream,
      res.sent.drop res.contentLength.toNat)
  else if res.contentLength < 0 then
    let data := res.sent.take (maxFastPathSize + 1)
    (data,
      if data.length = maxFastPathSize + 1 ∨ res.fails = false then none else some .upstream,
      res.sent.drop (maxFastPathSize + 1))
  else ([], none, res.sent)

inductive SelectedBody where
  | small (data : Bytes)
  | streamed (body : Bytes) (ending : StreamError)

def Response.selectBody (res : Response) : SelectedBody :=
  let (data, readErr, rest) := res.fastRead
  if readErr = none ∧ data.length ≤ maxFastPathSize ∧
      (res.contentLength < 0 ∨ (data.length : ℤ) = res.contentLength) then .small data
  else
    match readErr with
    | some err => .streamed data err
    | none => .streamed (data ++ rest) (if res.fails then .upstream else .eof)

inductive UpstreamOutcome where
  | more
  | eof
  | error
deriving DecidableEq, Repr

structure ReadInput where
  size : ℕ
  sent : ℕ
  outcome : UpstreamOutcome
  allocate : Bool := true
  written : ℕ
  writeErr : Bool := false

def Stream.bodyRead (s : Stream) (size : ℕ) (r : ReadInput) : Bytes × Option StreamError × Stream :=
  let data := s.rest.take (min size r.sent)
  let rest := s.rest.drop data.length
  match r.outcome with
  | .more => (data, none, { s with rest })
  | .eof => (data, if rest = [] then some .eof else none, { s with rest })
  | .error => (data, some .upstream, { s with rest, failed := true })

def Stream.fetch (cfg : StreamConfig) (s : Stream) (r : ReadInput) :
    Bytes × Option StreamError × Stream :=
  if 0 < cfg.maxSize then
    let remaining := cfg.maxSize - s.bytesRead
    if remaining ≤ 0 then
      let (probe, probeErr, s) := s.bodyRead 1 r
      ([], if probe = [] then probeErr else some .responseTooLarge, s)
    else
      let (data, err, s) := s.bodyRead (min r.size remaining.toNat) r
      (data, err, { s with bytesRead := s.bytesRead + data.length })
  else
    let (data, err, s) := s.bodyRead r.size r
    (data, err, { s with bytesRead := s.bytesRead + data.length })

def Stream.copy (s : Stream) (data : Bytes) (r : ReadInput) : Stream :=
  if data ≠ [] ∧ s.tmpFile = true ∧ s.success = true then
    if r.allocate = false then
      { s with success := false, writeErr := some .insufficientProxyDiskSpace }
    else
      let written := data.take r.written
      let s :=
        { s with
          temp := s.temp.map (· ++ written)
          bytesWritten := s.bytesWritten + written.length }
      if r.writeErr then { s with success := false, writeErr := some .write }
      else if written.length ≠ data.length then
        { s with success := false, writeErr := some .shortWrite }
      else s
  else s

def Stream.releasePermit (cfg : StreamConfig) (s : Stream) : Stream :=
  if s.permitOnce then s
  else { s with permitOnce := true, permits := if cfg.permit then s.permits + 1 else s.permits }

def Stream.read (cfg : StreamConfig) (s : Stream) (r : ReadInput) :
    (Bytes × Option StreamError) × Stream :=
  let (data, err, s) := s.fetch cfg r
  let s := { s.copy data r with delivered := s.delivered ++ data }
  match err with
  | none => ((data, none), s)
  | some .eof => ((data, some .eof), { s with readEOF := true }.releasePermit cfg)
  | some err => ((data, some err), { s with success := false }.releasePermit cfg)

inductive ReserveOutcome where
  | absent
  | refused
  | granted
deriving DecidableEq, Repr

/-- What `onSuccess` does with the target file. -/
inductive PostStore where
  | failed
  | kept
  | moved
deriving DecidableEq, Repr

structure CloseInput where
  closeBody : Bool := true
  /-- Where closing the temp file fails, how many of its bytes it has. -/
  closeFile : Option ℕ := none
  reserve : ReserveOutcome := .absent
  commit : Bool := true
  stat : Bool := true
  now : ℤ := 0
  onSuccess : Option PostStore := none

def Stream.whole (cfg : StreamConfig) (s : Stream) : Bool :=
  s.success && s.readEOF &&
    (decide (cfg.expectedSize < 0) || decide (s.bytesWritten = cfg.expectedSize))

def Stream.closeBody (s : Stream) (success : Bool) (c : CloseInput) : Bool × Stream :=
  if success then
    if c.closeBody then (true, { s with closeErr := none })
    else (false, { s with closeErr := some .closeBody })
  else (false, s)

def Stream.closeFile (s : Stream) (c : CloseInput) : Stream :=
  if s.tmpFile then
    match c.closeFile with
    | none => { s with tmpFile := false }
    | some kept =>
      { s with
        tmpFile := false
        temp := s.temp.map (·.take kept)
        closeErr := s.closeErr <|> some .closeFile }
  else s

def Stream.insertEntry (cfg : StreamConfig) (s : Stream) (c : CloseInput) : FileIndex :=
  let size := if c.stat then (s.target.map fun file => (file.length : ℤ)).getD s.bytesWritten
    else s.bytesWritten
  if cfg.fileIndex then
    (s.index.ensureParentDirs cfg.targetPath).insertFile cfg.targetPath { size, modTime := c.now }
  else s.index

/-- `artifactstore.CommitMutable`, the index entry and `onSuccess`. -/
def Stream.commit (cfg : StreamConfig) (s : Stream) (c : CloseInput) : Bool × Stream :=
  if c.commit then
    let s := { s with target := s.temp, temp := none, tmpKeep := true }
    let s := { s with index := s.insertEntry cfg c }
    match c.onSuccess with
    | none | some .kept => (true, s)
    | some .moved => (true, { s with target := none, remote := s.target })
    | some .failed =>
      (false,
        { s with
          target := none
          index := if cfg.fileIndex then s.index.removeFile cfg.targetPath else s.index })
  else (false, { s with closeErr := s.closeErr <|> some .commit })

def Stream.removeTemp (s : Stream) : Stream := if s.tmpKeep then s else { s with temp := none }

/-- The deferred `UnlockPath` and `releasePermit`. -/
def Stream.release (cfg : StreamConfig) (s : Stream) (success : Bool) : Stream :=
  { s with unlocked := if cfg.inFlightMgr then s.unlocked ++ [success] else s.unlocked }.releasePermit
    cfg

def Stream.close (cfg : StreamConfig) (s : Stream) (c : CloseInput) : Stream :=
  if s.closeOnce then s
  else
    let success := s.whole cfg
    let s := { s with closeOnce := true, closeErr := s.writeErr <|> s.closeErr }
    let (success, s) := s.closeBody success c
    let s := s.closeFile c
    if success then
      match c.reserve with
      | .refused => s.removeTemp.release cfg false
      | .absent =>
        let (success, s) := s.commit cfg c
        s.removeTemp.release cfg success
      | .granted =>
        let (success, s) := { s with reserved := s.reserved + 1 }.commit cfg c
        let s := s.removeTemp
        { s with finished := s.finished ++ [success] }.release cfg success
    else s.removeTemp.release cfg false

def createProxyStream (body : Bytes) (created : Bool) (target : Option Bytes) (index : FileIndex) :
    Stream where
  rest := body
  tmpFile := created
  writeErr := if created then none else some .create
  success := created
  temp := if created then some [] else none
  target := target
  index := index

/-- The reads of a client and its calls of `Close`, the first of which is the one that counts. -/
def Stream.reads (cfg : StreamConfig) (s : Stream) (inputs : List ReadInput) : Stream :=
  inputs.foldl (fun s r => (s.read cfg r).2) s

def Stream.closes (cfg : StreamConfig) (s : Stream) (inputs : List CloseInput) : Stream :=
  inputs.foldl (Stream.close cfg) s

end RenoP.Proxy
