import Mathlib.Tactic.Linarith

/-!
# Chunked uploads

`internal/service/upload/chunked.go`: the sizes of a session and, as steps of any number of
clients, what they do to one session and its place in the manager. A step is one section under
the session or manager lock, or one access outside of them. A byte of the temporary file is the
number of the chunk write that wrote it last.
-/

namespace RenoP.Upload

def minChunkSize : ℤ := 256 * 1024
def defaultChunkSize : ℤ := 4 * 1024 * 1024
def maxChunkSize : ℤ := 32 * 1024 * 1024
def maxPreferredChunks : ℤ := 2048
def maxSessions : ℕ := 256
def maxUploadMetadataLength : ℕ := 4 * 1024

def suggestChunkSize (totalSize : ℤ) : ℤ :=
  if totalSize ≤ 0 then defaultChunkSize
  else if totalSize ≤ 8 * 2 ^ 20 then totalSize
  else if totalSize ≤ 32 * 2 ^ 20 then 4 * 2 ^ 20
  else if totalSize ≤ 128 * 2 ^ 20 then 8 * 2 ^ 20
  else if totalSize ≤ 512 * 2 ^ 20 then 16 * 2 ^ 20
  else if totalSize ≤ 2 * 2 ^ 30 then 24 * 2 ^ 20
  else maxChunkSize

def normalizeChunkSize (totalSize requested : ℤ) : ℤ :=
  if totalSize ≤ 0 then
    if 0 < requested then
      if requested > maxChunkSize then maxChunkSize
      else if requested < minChunkSize then minChunkSize
      else requested
    else defaultChunkSize
  else if totalSize ≤ minChunkSize then totalSize
  else
    let size := if requested ≤ 0 then suggestChunkSize totalSize else requested
    let size := if size > maxChunkSize then maxChunkSize else size
    let size := if size < minChunkSize then minChunkSize else size
    if size ≥ totalSize then totalSize
    else if 1 + (totalSize - 1) / size > maxPreferredChunks then
      let size := max (min (1 + (totalSize - 1) / maxPreferredChunks) maxChunkSize) minChunkSize
      if size ≥ totalSize then totalSize else size
    else size

theorem normalizeChunkSize_bounds (totalSize requested : ℤ) :
    0 < normalizeChunkSize totalSize requested ∧ (0 < totalSize →
      normalizeChunkSize totalSize requested ≤ totalSize ∧
        normalizeChunkSize totalSize requested ≤ maxChunkSize) := by
  unfold normalizeChunkSize minChunkSize maxChunkSize defaultChunkSize
  by_cases hnone : totalSize ≤ 0
  · rw [if_pos hnone]
    split_ifs <;> omega
  rw [if_neg hnone]
  by_cases hsmall : totalSize ≤ 256 * 1024
  · rw [if_pos hsmall]
    omega
  rw [if_neg hsmall]
  dsimp only
  generalize (if requested ≤ 0 then suggestChunkSize totalSize else requested) = asked
  generalize hcap : (if asked > 32 * 1024 * 1024 then _ else asked) = capped
  generalize hclamp : (if capped < 256 * 1024 then _ else capped) = size
  have hsize : 256 * 1024 ≤ size ∧ size ≤ 32 * 1024 * 1024 := by
    split_ifs at hcap <;> split_ifs at hclamp <;> omega
  split_ifs <;> omega

theorem normalizeChunkSize_pos (totalSize requested : ℤ) :
    0 < normalizeChunkSize totalSize requested :=
  (normalizeChunkSize_bounds totalSize requested).1

/-- The sizes of a session, as `CreateSession` computes them. -/
structure SessionPlan where
  owner : String
  totalSize : ℤ
  chunkSize : ℤ
  chunkCount : ℕ
  owner_ne : owner ≠ ""
  totalSize_nonneg : 0 ≤ totalSize
  chunkSize_pos : 0 < chunkSize
  chunkCount_eq : (chunkCount : ℤ) = if totalSize > 0 then 1 + (totalSize - 1) / chunkSize else 0

def chunkCount (totalSize chunkSize : ℤ) : ℤ :=
  if totalSize > 0 then 1 + (totalSize - 1) / chunkSize else 0

theorem chunkCount_nonneg {totalSize chunkSize : ℤ} (h : 0 < chunkSize) :
    0 ≤ chunkCount totalSize chunkSize := by
  unfold chunkCount
  split_ifs with ht
  · have := Int.ediv_nonneg (a := totalSize - 1) (b := chunkSize) (by omega) (by omega)
    omega
  · exact le_refl _

/-- The checks of `CreateSession` before it touches the file system; `active` counts the
registered and the pending sessions. -/
def createSession (active : ℕ) (purpose filename owner : String) (totalSize chunkSize : ℤ)
    (localFilePath : String) : Except String SessionPlan :=
  if hsize : totalSize < 0 then .error "invalid size"
  else if filename.utf8ByteSize > maxUploadMetadataLength then .error "filename is too long"
  else if howner : owner = "" then .error "missing upload owner"
  else
    let size := normalizeChunkSize totalSize chunkSize
    if chunkCount totalSize size > 100000 then .error "too many chunks"
    else if active ≥ maxSessions then .error "too many concurrent uploads"
    else if purpose = "storage" ∧ localFilePath = "" then .error "missing destination path"
    else if purpose ≠ "storage" ∧ purpose ≠ "updater" then .error "invalid purpose"
    else .ok {
      owner := owner
      totalSize := totalSize
      chunkSize := size
      chunkCount := (chunkCount totalSize size).toNat
      owner_ne := howner
      totalSize_nonneg := by omega
      chunkSize_pos := normalizeChunkSize_pos totalSize chunkSize
      chunkCount_eq := Int.toNat_of_nonneg (chunkCount_nonneg (normalizeChunkSize_pos _ _)) }

def SessionPlan.ownedBy (plan : SessionPlan) (username : String) : Bool :=
  plan.owner != "" && plan.owner == username

def SessionPlan.offset (plan : SessionPlan) (index : ℕ) : ℤ := index * plan.chunkSize

def SessionPlan.expected (plan : SessionPlan) (index : ℕ) : ℤ :=
  if index + 1 = plan.chunkCount then plan.totalSize - plan.offset index else plan.chunkSize

def SessionPlan.InChunk (plan : SessionPlan) (index : ℕ) (b : ℤ) : Prop :=
  plan.offset index ≤ b ∧ b < plan.offset index + plan.expected index

theorem SessionPlan.inChunk_ediv {plan : SessionPlan} {index : ℕ} {b : ℤ}
    (hindex : index < plan.chunkCount) (h : plan.InChunk index b) : b / plan.chunkSize = index := by
  have hpos := plan.chunkSize_pos
  have hcount := plan.chunkCount_eq
  obtain ⟨hlo, hhi⟩ := h
  unfold SessionPlan.expected at hhi
  have hub : b < (index + 1) * plan.chunkSize := by
    split_ifs at hhi with hlast
    · split_ifs at hcount with ht
      · have hdiv : (index : ℤ) = (plan.totalSize - 1) / plan.chunkSize := by omega
        have hlt := Int.lt_ediv_add_one_mul_self (plan.totalSize - 1) hpos
        rw [← hdiv] at hlt
        omega
      · omega
    · rw [add_mul, one_mul]
      exact hhi
  have hlo' : (index : ℤ) * plan.chunkSize ≤ b := hlo
  have h1 : (index : ℤ) ≤ b / plan.chunkSize := (Int.le_ediv_iff_mul_le hpos).mpr hlo'
  have h2 : b / plan.chunkSize < index + 1 := (Int.ediv_lt_iff_lt_mul hpos).mpr hub
  omega

theorem SessionPlan.expected_nonneg (plan : SessionPlan) {index : ℕ}
    (hindex : index < plan.chunkCount) : 0 ≤ plan.expected index := by
  have hpos := plan.chunkSize_pos
  have hcount := plan.chunkCount_eq
  unfold SessionPlan.expected SessionPlan.offset
  split_ifs with hlast
  · split_ifs at hcount with ht
    · have hdiv : (index : ℤ) = (plan.totalSize - 1) / plan.chunkSize := by omega
      have hle := Int.ediv_mul_le (plan.totalSize - 1) (by omega : plan.chunkSize ≠ 0)
      rw [← hdiv] at hle
      omega
    · omega
  · omega

theorem SessionPlan.inChunk_unique {plan : SessionPlan} {i j : ℕ} {b : ℤ}
    (hi : i < plan.chunkCount) (hj : j < plan.chunkCount) (hbi : plan.InChunk i b)
    (hbj : plan.InChunk j b) : i = j := by
  have h1 := SessionPlan.inChunk_ediv hi hbi
  have h2 := SessionPlan.inChunk_ediv hj hbj
  omega

theorem SessionPlan.covers (plan : SessionPlan) {b : ℤ} (h0 : 0 ≤ b) (hb : b < plan.totalSize) :
    ∃ index, index < plan.chunkCount ∧ plan.InChunk index b := by
  have hpos := plan.chunkSize_pos
  have hcount := plan.chunkCount_eq
  rw [if_pos (by omega)] at hcount
  have hdiv : 0 ≤ b / plan.chunkSize := Int.ediv_nonneg h0 (by omega)
  have hle : b / plan.chunkSize ≤ (plan.totalSize - 1) / plan.chunkSize :=
    Int.ediv_le_ediv hpos (by omega)
  have hlo := Int.ediv_mul_le b (by omega : plan.chunkSize ≠ 0)
  have hhi := Int.lt_ediv_add_one_mul_self b hpos
  have hcast : ((b / plan.chunkSize).toNat : ℤ) = b / plan.chunkSize := Int.toNat_of_nonneg hdiv
  refine ⟨(b / plan.chunkSize).toNat, by omega, ?_, ?_⟩
  · unfold SessionPlan.offset
    rw [hcast]
    exact hlo
  · unfold SessionPlan.expected SessionPlan.offset
    rw [hcast]
    split_ifs
    · omega
    · rw [add_mul, one_mul] at hhi
      exact hhi

end RenoP.Upload

/-!
## Clients of one upload

`BeginSessionCompletion` holds the manager lock from its look at the map to its end, `AbortOwned`
and `CleanupExpired` take the session out of the map under that lock and abort it after.
-/

namespace RenoP.Upload

inductive ChunkState where
  | free
  | writing
  | done
  deriving DecidableEq

/-- A claimed chunk write. `handle` tells whether the claim got an open file. -/
structure ChunkWrite where
  attempt : ℕ
  index : ℕ
  handle : Bool

inductive Pc where
  | idle
  | chunk (index contentLength : ℤ)
  | claim (index contentLength : ℤ)
  | writing (w : ChunkWrite) (written : ℤ)
  | finishing (w : ChunkWrite)
  | releasing (w : ChunkWrite)
  | completing
  -- Abort: before its section, then with the file and the path it took
  | aborting
  | closing (file path : Bool)
  | removing (path : Bool)
  | storing

structure Upload where
  received : ℕ → ChunkState
  done : Bool
  closed : Bool
  aborting : Bool
  file : Bool
  tempPath : Bool
  inMap : Bool
  /-- the caller that holds the manager lock between two steps -/
  managerHeld : Option ℕ
  fileOpen : Bool
  removed : Bool
  disk : ℤ → Option ℕ
  accepted : List ChunkWrite
  attempts : ℕ
  completions : ℕ
  threads : ℕ → Pc

def Upload.start : Upload where
  received := fun _ => .free
  done := false
  closed := false
  aborting := false
  file := true
  tempPath := true
  inMap := true
  managerHeld := none
  fileOpen := true
  removed := false
  disk := fun _ => none
  accepted := []
  attempts := 0
  completions := 0
  threads := fun _ => .idle

/-- `claimChunk` under the session lock, up to the claim itself. -/
def claimChunk (plan : SessionPlan) (s : Upload) (index contentLength : ℤ) : Except String ℕ :=
  if s.closed || s.aborting then .error "session closed"
  else if index < 0 ∨ (plan.chunkCount > 0 ∧ index ≥ plan.chunkCount) then
    .error "invalid chunk index"
  else if plan.chunkCount = 0 then .error "no chunks expected for empty file"
  else match s.received index.toNat with
  | .done => .error "chunk already done"
  | .writing => .error "chunk already in progress"
  | .free =>
    if contentLength ≥ 0 ∧ contentLength ≠ plan.expected index.toNat then
      .error "unexpected chunk size"
    else .ok index.toNat

def Upload.goto (s : Upload) (t : ℕ) (pc : Pc) : Upload :=
  { s with threads := Function.update s.threads t pc }

def Upload.setReceived (s : Upload) (index : ℕ) (state : ChunkState) : Upload :=
  { s with received := Function.update s.received index state }

def AllReceived (plan : SessionPlan) (s : Upload) : Prop :=
  ∀ index, index < plan.chunkCount → s.received index = .done

/-- `file.WriteAt` of the next `n` bytes of a chunk. -/
def Upload.write (plan : SessionPlan) (s : Upload) (w : ChunkWrite) (written n : ℤ) : Upload :=
  { s with disk := fun b =>
      if plan.offset w.index + written ≤ b ∧ b < plan.offset w.index + written + n then
        some w.attempt
      else s.disk b }

inductive Step (plan : SessionPlan) (t : ℕ) : Upload → Upload → Prop
  -- WriteChunk, WriteChunkBytes
  | callChunk {s} (index contentLength : ℤ) (h : s.threads t = .idle) :
      Step plan t s (s.goto t (.chunk index contentLength))
  | chunkCompleted {s index contentLength} (h : s.threads t = .chunk index contentLength)
      (hdone : s.done = true) : Step plan t s (s.goto t .idle)
  | chunkOpen {s index contentLength} (h : s.threads t = .chunk index contentLength)
      (hdone : s.done = false) : Step plan t s (s.goto t (.claim index contentLength))
  | refused {s index contentLength err} (h : s.threads t = .claim index contentLength)
      (herr : claimChunk plan s index contentLength = .error err) : Step plan t s (s.goto t .idle)
  | claimed {s index contentLength n} (h : s.threads t = .claim index contentLength)
      (hok : claimChunk plan s index contentLength = .ok n) :
      Step plan t s ({ s.setReceived n .writing with attempts := s.attempts + 1 }.goto t
        (.writing ⟨s.attempts, n, s.file⟩ 0))
  | writePiece {s w written} (n : ℤ) (h : s.threads t = .writing w written)
      (hopen : w.handle = true ∧ s.fileOpen = true) (hpos : 0 < n)
      (hfits : written + n ≤ plan.expected w.index) :
      Step plan t s ((s.write plan w written n).goto t (.writing w (written + n)))
  -- an error of the reader or of the file, or fewer bytes than expected
  | writeFailed {s w written} (h : s.threads t = .writing w written) :
      Step plan t s (s.goto t (.releasing w))
  | written {s w n} (h : s.threads t = .writing w n) (hn : n = plan.expected w.index) :
      Step plan t s (s.goto t (.finishing w))
  | finishClosed {s w} (h : s.threads t = .finishing w) (hclosed : s.closed = true ∨ s.aborting = true) :
      Step plan t s ((s.setReceived w.index .free).goto t .idle)
  | finish {s w} (h : s.threads t = .finishing w) (hclosed : s.closed = false)
      (haborting : s.aborting = false) :
      Step plan t s ({ s.setReceived w.index .done with accepted := w :: s.accepted }.goto t .idle)
  | release {s w} (h : s.threads t = .releasing w) (hwriting : s.received w.index = .writing) :
      Step plan t s ((s.setReceived w.index .free).goto t .idle)
  | releaseOther {s w} (h : s.threads t = .releasing w) (hwriting : s.received w.index ≠ .writing) :
      Step plan t s (s.goto t .idle)
  -- BeginSessionCompletion
  | beginRefused {s} (owner : String) (h : s.threads t = .idle) (hfree : s.managerHeld = none)
      (hno : s.inMap = false ∨ plan.ownedBy owner = false ∨ s.done = true) :
      Step plan t s (s.goto t .idle)
  | begin {s} (owner : String) (h : s.threads t = .idle) (hfree : s.managerHeld = none)
      (hmap : s.inMap = true) (howned : plan.ownedBy owner = true) (hdone : s.done = false) :
      Step plan t s ({ s with done := true, managerHeld := some t }.goto t .completing)
  | completeClosed {s} (h : s.threads t = .completing)
      (hclosed : s.closed = true ∨ s.aborting = true) :
      Step plan t s ({ s with managerHeld := none }.goto t .idle)
  | incomplete {s} (h : s.threads t = .completing) (hclosed : s.closed = false)
      (haborting : s.aborting = false) (hall : ¬ AllReceived plan s) :
      Step plan t s ({ s with done := false, managerHeld := none }.goto t .idle)
  | complete {s} (h : s.threads t = .completing) (hclosed : s.closed = false)
      (haborting : s.aborting = false) (hall : AllReceived plan s) :
      Step plan t s ({ s with
        managerHeld := none, inMap := false, completions := s.completions + 1 }.goto t .idle)
  -- AbortOwned, CleanupExpired
  | abortRefused {s} (owner : String) (h : s.threads t = .idle) (hfree : s.managerHeld = none)
      (hno : s.inMap = false ∨ plan.ownedBy owner = false) : Step plan t s (s.goto t .idle)
  | abortOwned {s} (owner : String) (h : s.threads t = .idle) (hfree : s.managerHeld = none)
      (hmap : s.inMap = true) (howned : plan.ownedBy owner = true) :
      Step plan t s ({ s with inMap := false }.goto t .aborting)
  | cleanupExpired {s} (h : s.threads t = .idle) (hfree : s.managerHeld = none)
      (hmap : s.inMap = true) : Step plan t s ({ s with inMap := false }.goto t .aborting)
  | abortTwice {s} (h : s.threads t = .aborting) (haborting : s.aborting = true) :
      Step plan t s (s.goto t .idle)
  | abort {s} (h : s.threads t = .aborting) (haborting : s.aborting = false) :
      Step plan t s ({ s with
        aborting := true, file := false, tempPath := false, closed := true }.goto t
          (.closing s.file s.tempPath))
  | close {s file path} (h : s.threads t = .closing file path) :
      Step plan t s ({ s with fileOpen := s.fileOpen && !file }.goto t (.removing path))
  | remove {s path} (h : s.threads t = .removing path) :
      Step plan t s ({ s with removed := s.removed || path }.goto t .storing)
  | store {s} (h : s.threads t = .storing) : Step plan t s ({ s with done := true }.goto t .idle)
  -- MarkCompleted, CloseFile
  | markCompleted {s} (h : s.threads t = .idle) :
      Step plan t s ({ s with
        closed := true, file := false, fileOpen := s.fileOpen && !s.file }.goto t .storing)
  | closeFile {s} (h : s.threads t = .idle) :
      Step plan t s ({ s with file := false, fileOpen := s.fileOpen && !s.file }.goto t .idle)

def Steps (plan : SessionPlan) : Upload → Upload → Prop :=
  Relation.ReflTransGen fun s s' => ∃ t, Step plan t s s'

end RenoP.Upload
