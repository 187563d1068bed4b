import RenoP.Lib.GoMap
import RenoP.Lib.SlotTable

/-!
# The sharded cache

`internal/cache/ttl/cache.go`, without a remote backend. Every function here is one section of
the source that runs under a shard lock, or a call made of such sections with nothing between
them. `none` is a run-time panic: a nil pointer or an index out of range. An item carries the
address it was allocated at, so two pointers are equal when their addresses are.
-/

namespace RenoP.Cache.TTL

def numShards : ℕ := 32
def defaultMaxCacheEntries : ℕ := 8192
def evictionSampleSize : ℕ := 8

/-- The capacity of a shard as `NewTTLCacheWithCapacity` computes it. -/
def maxEntriesPerShard (maxEntries : ℤ) : ℕ :=
  let total := if maxEntries ≤ 0 then (defaultMaxCacheEntries : ℤ) else maxEntries
  (max ((total + numShards - 1) / numShards) 1).toNat

/-- What never changes in a cache. `selfEqual` is `key == key`, false of a NaN. -/
structure TTLConfig (K : Type) where
  defaultTTL : ℤ
  maxEntriesPerShard : ℕ
  getShard : K → Fin numShards
  selfEqual : K → Bool
  maxEntries_pos : 1 ≤ maxEntriesPerShard

structure CacheItem (K V : Type) where
  address : ℕ
  key : K
  value : V
  expiredAt : ℤ
  slot : ℕ
  deriving DecidableEq

structure CacheShard (K V : Type) extends SlotTable (CacheItem K V) where
  hand : ℕ
  inFlight : GoMap K ℕ

structure TTLCache (K V : Type) where
  items : GoMap K (CacheItem K V)
  shards : Fin numShards → CacheShard K V
  accessed : ℕ → Bool
  generation : ℕ
  allocated : ℕ

variable {K V : Type} [DecidableEq K]

def newTTLCache : TTLCache K V where
  items := ∅
  shards := fun _ => { SlotTable.empty with hand := 0, inFlight := ∅ }
  accessed := fun _ => false
  generation := 0
  allocated := 0

def TTLCache.setShard (c : TTLCache K V) (i : Fin numShards) (shard : CacheShard K V) :
    TTLCache K V :=
  { c with shards := Function.update c.shards i shard }

def unixMilli (nanos : ℤ) : ℤ := nanos / 1000000

def removeLocked (c : TTLCache K V) (i : Fin numShards) (entry : CacheItem K V) :
    Option (TTLCache K V) :=
  let shard := c.shards i
  if entry.slot < shard.slots.length then
    some { c.setShard i { shard with toSlotTable := shard.release entry.slot } with
      items := c.items.delete entry.key }
  else none

/-- `shard.slots[entry.slot] = entry; c.items.Store(entry.key, entry)` -/
def publish (c : TTLCache K V) (i : Fin numShards) (entry : CacheItem K V) :
    Option (TTLCache K V) :=
  let shard := c.shards i
  if entry.slot < shard.slots.length then
    some { c.setShard i { shard with toSlotTable := shard.put entry.slot entry } with
      items := c.items.store entry.key entry }
  else none

structure Sample (K V : Type) where
  hand : ℕ
  accessed : ℕ → Bool
  previous : Option (CacheItem K V)

/-- `shard.slots[shard.hand]` with its fields read. -/
def candidateAt (slots : List (Option (CacheItem K V))) (hand : ℕ) : Option (CacheItem K V) :=
  slots[hand]?.join

def sampleStep (slots : List (Option (CacheItem K V))) (s : Sample K V) : Option (Sample K V) :=
  match candidateAt slots s.hand with
  | none => none
  | some candidate =>
    let hand := (s.hand + 1) % slots.length
    let accessed := Function.update s.accessed candidate.address false
    if s.accessed candidate.address then some ⟨hand, accessed, s.previous⟩
    else match s.previous with
    | none => some ⟨hand, accessed, some candidate⟩
    | some previous =>
      if candidate.expiredAt < previous.expiredAt then some ⟨hand, accessed, some candidate⟩
      else some ⟨hand, accessed, s.previous⟩

def sampleLoop (slots : List (Option (CacheItem K V))) : ℕ → Sample K V → Option (Sample K V)
  | 0, s => some s
  | n + 1, s => (sampleStep slots s).bind (sampleLoop slots n)

/-- The entry that makes room, with the hand and the accessed bits after the search. -/
def evictionVictim (c : TTLCache K V) (shard : CacheShard K V) :
    Option (CacheItem K V × ℕ × (ℕ → Bool)) :=
  let n := shard.slots.length
  match sampleLoop shard.slots (min evictionSampleSize n) ⟨shard.hand, c.accessed, none⟩ with
  | none => none
  | some s =>
    match s.previous with
    | some previous => some (previous, s.hand, s.accessed)
    | none =>
      match candidateAt shard.slots s.hand with
      | none => none
      | some previous => some (previous, (s.hand + 1) % n, s.accessed)

def setLocked (cfg : TTLConfig K) (c : TTLCache K V) (i : Fin numShards) (entry : CacheItem K V) :
    Option (TTLCache K V) :=
  let shard := c.shards i
  match c.items.load entry.key with
  | some current => publish c i { entry with slot := current.slot }
  | none =>
    match shard.free with
    | slot :: free => publish (c.setShard i { shard with free := free }) i { entry with slot := slot }
    | [] =>
      if shard.slots.length < cfg.maxEntriesPerShard then
        publish (c.setShard i { shard with slots := shard.slots ++ [none] }) i
          { entry with slot := shard.slots.length }
      else match evictionVictim c shard with
      | none => none
      | some (previous, hand, accessed) =>
        let c := { c.setShard i { shard with hand := hand } with
          accessed := accessed, items := c.items.delete previous.key }
        publish c i { entry with slot := previous.slot }

def removeExpired (cfg : TTLConfig K) (c : TTLCache K V) (key : K) (item : CacheItem K V) :
    Option (TTLCache K V) :=
  match c.items.load key with
  | none => some c
  | some current =>
    if current.address = item.address then removeLocked c (cfg.getShard key) current else some c

def deleteLocked (cfg : TTLConfig K) (c : TTLCache K V) (key : K) : Option (TTLCache K V) :=
  match c.items.load key with
  | none => some c
  | some item => removeLocked c (cfg.getShard key) item

/-- One turn of the loops of `DeleteFunc` and `EvictExpired`. -/
def removeIf (selected : CacheItem K V → Bool) (i : Fin numShards) (c : TTLCache K V) (n : ℕ) :
    Option (TTLCache K V) :=
  match candidateAt (c.shards i).slots n with
  | none => some c
  | some item => if selected item then removeLocked c i item else some c

def removeWhere (selected : CacheItem K V → Bool) (c : TTLCache K V) (i : Fin numShards) :
    Option (TTLCache K V) :=
  (List.range (c.shards i).slots.length).foldlM (removeIf selected i) c

def deleteFuncLocked (predicate : K → V → Bool) (c : TTLCache K V) (i : Fin numShards) :
    Option (TTLCache K V) :=
  removeWhere (fun item => predicate item.key item.value) c i

def evictExpiredLocked (now : ℤ) (c : TTLCache K V) (i : Fin numShards) : Option (TTLCache K V) :=
  removeWhere (fun item => decide (item.expiredAt ≤ unixMilli now)) c i

def clearLocked (c : TTLCache K V) (i : Fin numShards) : TTLCache K V :=
  let shard := c.shards i
  { c.setShard i { shard with slots := [], free := [], hand := 0 } with
    items := shard.values.foldl (fun items item => items.delete item.key) c.items }

def allocate (cfg : TTLConfig K) (c : TTLCache K V) (key : K) (value : V) (ttl now : ℤ) :
    CacheItem K V × TTLCache K V :=
  let ttl := if ttl ≤ 0 then cfg.defaultTTL else ttl
  (⟨c.allocated, key, value, unixMilli (now + ttl), 0⟩,
    { c with
      allocated := c.allocated + 1
      accessed := Function.update c.accessed c.allocated false })

def setIfGeneration (cfg : TTLConfig K) (c : TTLCache K V) (key : K) (value : V) (ttl : ℤ)
    (generation : ℕ) (now : ℤ) : Option (Bool × TTLCache K V) :=
  if !cfg.selfEqual key || c.generation != generation then some (false, c)
  else
    let (entry, c) := allocate cfg c key value ttl now
    (setLocked cfg c (cfg.getShard key) entry).map fun c => (true, c)

def set (cfg : TTLConfig K) (c : TTLCache K V) (key : K) (value : V) (ttl now : ℤ) :
    Option (Bool × TTLCache K V) :=
  setIfGeneration cfg c key value ttl c.generation now

def get (cfg : TTLConfig K) (c : TTLCache K V) (key : K) (now : ℤ) :
    Option (Option V × TTLCache K V) :=
  match c.items.load key with
  | none => some (none, c)
  | some item =>
    if item.expiredAt ≤ unixMilli now then (removeExpired cfg c key item).map fun c => (none, c)
    else some (some item.value, { c with accessed := Function.update c.accessed item.address true })

def bump (c : TTLCache K V) : TTLCache K V := { c with generation := c.generation + 1 }

def delete (cfg : TTLConfig K) (c : TTLCache K V) (key : K) : Option (TTLCache K V) :=
  deleteLocked cfg (bump c) key

def clear (c : TTLCache K V) : TTLCache K V := (List.finRange numShards).foldl clearLocked (bump c)

def deleteFunc (c : TTLCache K V) (predicate : K → V → Bool) : Option (TTLCache K V) :=
  (List.finRange numShards).foldlM (deleteFuncLocked predicate) (bump c)

def evictExpired (c : TTLCache K V) (now : ℤ) : Option (TTLCache K V) :=
  (List.finRange numShards).foldlM (evictExpiredLocked now) c

def len (c : TTLCache K V) : ℤ :=
  ((List.finRange numShards).map fun i =>
    ((c.shards i).slots.length : ℤ) - (c.shards i).free.length).sum

end RenoP.Cache.TTL
