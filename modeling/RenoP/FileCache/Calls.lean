import RenoP.FileCache.Shards
import Mathlib.Data.Fintype.BigOperators

/-!
# Calls on the file cache

`Set`, `Delete` and `Clear` of any number of threads, interleaved. A step of a thread is one hold
of the lock of a shard up to its first addition, one addition to a counter, the release of the
lock, or one read or store of a counter.
-/

namespace RenoP.FileCache

structure Limits where
  maxBytes : ℤ
  maxMetadata : ℤ

def newFileByteCache (maxBytes : ℤ) : Limits :=
  if maxBytes ≤ 0 then ⟨0, 0⟩ else ⟨maxBytes, max maxBytes 4096⟩

def Limits.of (limits : Limits) : Counter → ℤ
  | .used => limits.maxBytes
  | .metadata => limits.maxMetadata

/-- Where `overBudget` is called. -/
inductive At where
  | set
  | loop
  | shard (i : Fin fileCacheShardCount) (progress : Bool)
  deriving DecidableEq

inductive After where
  | set (key : Key)
  | delete
  | evict (key : Key) (i : Fin fileCacheShardCount) (progress : Bool)
  deriving DecidableEq

inductive Pc where
  | set (key : Key) (value : List UInt8)
  | delete (key : Key)
  /-- holds the lock of a shard, with these additions left -/
  | count (i : Fin fileCacheShardCount) (adds : List Add) (after : After)
  /-- in `overBudget`, before the first read and between the two -/
  | readUsed (key : Key) (place : At)
  | readMetadata (key : Key) (place : At)
  | evict (key : Key) (i : Fin fileCacheShardCount) (progress : Bool)
  | clear (i : Fin fileCacheShardCount)
  | storeUsed
  | storeMetadata
  deriving DecidableEq

structure System where
  shards : Fin fileCacheShardCount → Shard
  used : ℤ
  metadata : ℤ
  threads : GoMap ℕ Pc

def System.start : System := ⟨fun _ => .empty, 0, 0, ∅⟩

def System.counter (s : System) : Counter → ℤ
  | .used => s.used
  | .metadata => s.metadata

def System.add (s : System) (add : Add) : System :=
  match add.1 with
  | .used => { s with used := s.used + add.2 }
  | .metadata => { s with metadata := s.metadata + add.2 }

def System.goto (s : System) (thread : ℕ) (pc : Pc) : System :=
  { s with threads := s.threads.store thread pc }

def System.leave (s : System) (thread : ℕ) : System :=
  { s with threads := s.threads.delete thread }

def System.put (s : System) (i : Fin fileCacheShardCount) (shard : Shard) : System :=
  { s with shards := Function.update s.shards i shard }

def System.hold (s : System) (thread : ℕ) (i : Fin fileCacheShardCount) (shard : Shard)
    (adds : List Add) (after : After) : System :=
  (s.put i { shard with locked := true }).goto thread (.count i adds after)

def nextShard (i : Fin fileCacheShardCount) : Option (Fin fileCacheShardCount) :=
  if h : i.val + 1 < fileCacheShardCount then some ⟨i.val + 1, h⟩ else none

def firstShard : Fin fileCacheShardCount := ⟨0, by decide⟩

def System.resume (s : System) (thread : ℕ) : After → System
  | .set key => s.goto thread (.readUsed key .set)
  | .delete => s.leave thread
  | .evict key i progress =>
    match nextShard i with
    | some j => s.goto thread (.readUsed key (.shard j progress))
    | none => if progress then s.goto thread (.readUsed key .loop) else s.leave thread

/-- A thread goes on where `overBudget` is true. -/
def System.over (s : System) (thread : ℕ) (key : Key) : At → System
  | .set => s.goto thread (.readUsed key .loop)
  | .loop => s.goto thread (.readUsed key (.shard firstShard false))
  | .shard i progress => s.goto thread (.evict key i progress)

variable (limits : Limits)

/-- One step of a thread, which waits while another has the lock that it needs. -/
def System.step (s : System) (thread : ℕ) (o : GoMap.RangeOrder Key FileCacheEntry) : Pc → System
  | .set key value =>
    if value.length > limits.maxBytes ∨ key.length > limits.maxMetadata - fileCacheEntryMetadata
    then s.goto thread (.delete key)
    else if (s.shards (shardOf key)).locked then s
    else
      let (shard, adds) := (s.shards (shardOf key)).set key ⟨value, value.length⟩
      s.hold thread (shardOf key) shard adds (.set key)
  | .delete key =>
    if (s.shards (shardOf key)).locked then s
    else
      let (shard, adds) := (s.shards (shardOf key)).delete key
      s.hold thread (shardOf key) shard adds .delete
  | .count i (add :: adds) after => (s.add add).goto thread (.count i adds after)
  | .count i [] after => (s.put i { s.shards i with locked := false }).resume thread after
  | .readUsed key place =>
    if s.used > limits.maxBytes then s.over thread key place
    else s.goto thread (.readMetadata key place)
  | .readMetadata key place =>
    if s.metadata > limits.maxMetadata then s.over thread key place else s.leave thread
  | .evict key i progress =>
    if (s.shards i).locked then s
    else
      match (s.shards i).evictOne o key with
      | none => s
      | some (shard, adds, evicted) =>
        s.hold thread i shard.compact adds (.evict key i (progress || evicted))
  | .clear i =>
    if (s.shards i).locked then s
    else
      match nextShard i with
      | some j => (s.put i (s.shards i).clear).goto thread (.clear j)
      | none => (s.put i (s.shards i).clear).goto thread .storeUsed
  | .storeUsed => { s with used := 0 }.goto thread .storeMetadata
  | .storeMetadata => { s with metadata := 0 }.leave thread

inductive Action where
  | set (thread : ℕ) (key : Key) (value : List UInt8)
  | delete (thread : ℕ) (key : Key)
  | clear (thread : ℕ)
  | step (thread : ℕ) (o : GoMap.RangeOrder Key FileCacheEntry)

def System.call (s : System) (thread : ℕ) (pc : Pc) : System :=
  if limits.maxBytes ≤ 0 then s
  else
    match s.threads.load thread with
    | none => s.goto thread pc
    | some _ => s

def System.next (s : System) : Action → System
  | .set thread key value => s.call limits thread (.set key value)
  | .delete thread key => s.call limits thread (.delete key)
  | .clear thread => s.call limits thread (.clear firstShard)
  | .step thread o =>
    match s.threads.load thread with
    | none => s
    | some pc => s.step limits thread o pc

def System.stored (s : System) (c : Counter) : ℤ := ∑ i, (s.shards i).stored c

def Pc.adds : Pc → List Add
  | .count _ adds _ => adds
  | _ => []

def Pc.pending (c : Counter) (pc : Pc) : ℤ := total pc.adds c

def System.pending (s : System) (c : Counter) : ℤ := GoMap.sum (fun _ => Pc.pending c) s.threads

def System.counted (s : System) (c : Counter) : ℤ := s.stored c - s.pending c

def System.idle (s : System) : Prop := ∀ t, s.threads.load t = none

end RenoP.FileCache
