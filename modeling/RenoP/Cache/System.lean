import RenoP.Cache.Sections

/-!
# Callers of the cache

Any number of callers take steps in any order. A step is one section under a shard lock or one
atomic access outside of it; a store keeps its lock from the second look at the generation to the
publication, since an invalidation moves the generation without the lock. Values carry the token
they were stored with: the generation, and the step at which it was read.
-/

namespace RenoP.Cache.TTL

structure Token where
  generation : ℕ
  step : ℕ

structure Stamped (V : Type) where
  value : V
  origin : Token

structure LoadResult (V : Type) where
  value : V
  ttl : ℤ
  failed : Bool

structure CacheLoad (V : Type) where
  token : Token
  result : Option (LoadResult V)

inductive Removal (K V : Type) where
  | key (key : K)
  | all
  | func (predicate : K → V → Bool)

def Removal.Covers {K V : Type} : Removal K V → K → Prop
  | .key k', k => k = k'
  | .all, _ => True
  | .func predicate, k => ∀ v, predicate k v = true

structure Invalidation (K V : Type) where
  removal : Removal K V
  began : ℕ
  pending : List (Fin numShards)
  returned : Option ℕ

inductive After (K V : Type) where
  | caller
  | load (started load : ℕ) (result : LoadResult V)

inductive Pc (K V : Type) where
  | idle
  -- SetIfGeneration
  | set (key : K) (value : Stamped V) (ttl : ℤ) (after : After K V)
  | setWait (entry : CacheItem K (Stamped V)) (after : After K V)
  | setHeld (entry : CacheItem K (Stamped V)) (after : After K V)
  -- Get, as a call or inside GetOrLoad
  | get (key : K) (started : ℕ) (inLoad : Bool)
  | getLookup (key : K) (started : ℕ) (inLoad : Bool) (generation : ℕ)
  | getItem (key : K) (started : ℕ) (inLoad : Bool) (generation : ℕ)
      (item : CacheItem K (Stamped V))
  | getExpired (key : K) (started : ℕ) (inLoad : Bool) (item : CacheItem K (Stamped V))
  | getRead (key : K) (started : ℕ) (inLoad : Bool) (generation : ℕ)
      (item : CacheItem K (Stamped V))
  -- GetOrLoad
  | direct (key : K) (started : ℕ) (token : Token)
  | loop (key : K) (started : ℕ)
  | join (key : K) (started load : ℕ)
  | full (key : K) (started load : ℕ)
  | loading (key : K) (started load : ℕ)
  | finish (key : K) (started load : ℕ) (result : LoadResult V)
  -- Delete, Clear, DeleteFunc
  | removing (id : ℕ)

structure Answer (K V : Type) where
  key : K
  started : ℕ
  value : Stamped V

structure System (K V : Type) where
  cache : TTLCache K (Stamped V)
  loads : ℕ → CacheLoad V
  nextLoad : ℕ
  /-- the caller that holds the lock of a shard between two steps -/
  held : Fin numShards → Option ℕ
  threads : ℕ → Pc K V
  /-- by the generation that the call made current -/
  invalidations : ℕ → Invalidation K V
  tokens : List Token
  answers : List (Answer K V)
  clock : ℕ

variable {K V : Type} [DecidableEq K]

def After.resume (key : K) : After K V → Pc K V
  | .caller => .idle
  | .load started id result => .finish key started id result

def System.start : System K V where
  cache := newTTLCache
  loads := fun _ => ⟨⟨0, 0⟩, none⟩
  nextLoad := 0
  held := fun _ => none
  threads := fun _ => .idle
  invalidations := fun _ => ⟨.all, 0, [], none⟩
  tokens := []
  answers := []
  clock := 0

def System.goto (s : System K V) (t : ℕ) (pc : Pc K V) : System K V :=
  { s with threads := Function.update s.threads t pc, clock := s.clock + 1 }

def System.token (s : System K V) : Token := ⟨s.cache.generation, s.clock⟩

def System.answer (s : System K V) (key : K) (started : ℕ) (value : Stamped V) : System K V :=
  { s with answers := ⟨key, started, value⟩ :: s.answers }

def System.touch (s : System K V) (address : ℕ) : System K V :=
  { s with cache := { s.cache with accessed := Function.update s.cache.accessed address true } }

def System.missed (cfg : TTLConfig K) (s : System K V) (key : K) (started : ℕ) (inLoad : Bool) :
    Pc K V :=
  if !inLoad then .idle
  else if !cfg.selfEqual key then .direct key started s.token
  else .loop key started

def Removal.shards (cfg : TTLConfig K) : Removal K V → List (Fin numShards)
  | .key k => [cfg.getShard k]
  | .all => List.finRange numShards
  | .func _ => List.finRange numShards

def Removal.apply (cfg : TTLConfig K) (c : TTLCache K (Stamped V)) (i : Fin numShards) :
    Removal K V → Option (TTLCache K (Stamped V))
  | .key k => deleteLocked cfg c k
  | .all => some (clearLocked c i)
  | .func predicate => deleteFuncLocked (fun k v => predicate k v.value) c i

def System.setInFlight (s : System K V) (i : Fin numShards) (inFlight : GoMap K ℕ) : System K V :=
  { s with cache := s.cache.setShard i { s.cache.shards i with inFlight := inFlight } }

def System.startLoad (s : System K V) (i : Fin numShards) (key : K) : System K V :=
  { s.setInFlight i ((s.cache.shards i).inFlight.store key s.nextLoad) with
    loads := Function.update s.loads s.nextLoad ⟨s.token, none⟩
    nextLoad := s.nextLoad + 1 }

/-- `pending.value, pending.err = value, loadErr`, the pending entry dropped when it is still
this one, `close(pending.done)`. -/
def System.finishLoad (s : System K V) (i : Fin numShards) (key : K) (load : ℕ)
    (result : LoadResult V) : System K V :=
  let inFlight := (s.cache.shards i).inFlight
  { s.setInFlight i (if inFlight.load key = some load then inFlight.delete key else inFlight) with
    loads := Function.update s.loads load ⟨(s.loads load).token, some result⟩ }

inductive Step (cfg : TTLConfig K) (t : ℕ) : System K V → System K V → Prop
  -- Generation()
  | generation {s} (h : s.threads t = .idle) :
      Step cfg t s ({ s with tokens := s.token :: s.tokens }.goto t .idle)
  -- SetIfGeneration
  | callSet {s} (key : K) (value : V) (ttl : ℤ) (token : Token) (h : s.threads t = .idle)
      (htoken : token ∈ s.tokens) :
      Step cfg t s (s.goto t (.set key ⟨value, token⟩ ttl .caller))
  | setRefused {s key value ttl after} (h : s.threads t = .set key value ttl after)
      (hgen : cfg.selfEqual key = false ∨ s.cache.generation ≠ value.origin.generation) :
      Step cfg t s (s.goto t (after.resume key))
  | setAllocate {s key value ttl after} (now : ℤ) (h : s.threads t = .set key value ttl after)
      (hself : cfg.selfEqual key = true) (hgen : s.cache.generation = value.origin.generation) :
      Step cfg t s ({ s with cache := (allocate cfg s.cache key value ttl now).2 }.goto t
        (.setWait (allocate cfg s.cache key value ttl now).1 after))
  | setOutdated {s entry after} (h : s.threads t = .setWait entry after)
      (hfree : s.held (cfg.getShard entry.key) = none)
      (hgen : s.cache.generation ≠ entry.value.origin.generation) :
      Step cfg t s (s.goto t (after.resume entry.key))
  | setLock {s entry after} (h : s.threads t = .setWait entry after)
      (hfree : s.held (cfg.getShard entry.key) = none)
      (hgen : s.cache.generation = entry.value.origin.generation) :
      Step cfg t s ({ s with held := Function.update s.held (cfg.getShard entry.key) (some t) }.goto t
        (.setHeld entry after))
  | setStore {s entry after c} (h : s.threads t = .setHeld entry after)
      (hc : setLocked cfg s.cache (cfg.getShard entry.key) entry = some c) :
      Step cfg t s ({ s with
        cache := c, held := Function.update s.held (cfg.getShard entry.key) none }.goto t
          (after.resume entry.key))
  -- Get
  | callGet {s} (key : K) (inLoad : Bool) (h : s.threads t = .idle) :
      Step cfg t s (s.goto t (.get key s.clock inLoad))
  | getGeneration {s key started inLoad} (h : s.threads t = .get key started inLoad) :
      Step cfg t s (s.goto t (.getLookup key started inLoad s.cache.generation))
  | getMiss {s key started inLoad generation}
      (h : s.threads t = .getLookup key started inLoad generation)
      (hitem : s.cache.items.load key = none) :
      Step cfg t s (s.goto t (s.missed cfg key started inLoad))
  | getFound {s key started inLoad generation item}
      (h : s.threads t = .getLookup key started inLoad generation)
      (hitem : s.cache.items.load key = some item) :
      Step cfg t s (s.goto t (.getItem key started inLoad generation item))
  | getLate {s key started inLoad generation item} (now : ℤ)
      (h : s.threads t = .getItem key started inLoad generation item)
      (hnow : item.expiredAt ≤ unixMilli now) :
      Step cfg t s (s.goto t (.getExpired key started inLoad item))
  | getRemove {s key started inLoad item c}
      (h : s.threads t = .getExpired key started inLoad item)
      (hfree : s.held (cfg.getShard key) = none) (hc : removeExpired cfg s.cache key item = some c) :
      Step cfg t s ({ s with cache := c }.goto t (s.missed cfg key started inLoad))
  | getInTime {s key started inLoad generation item} (now : ℤ)
      (h : s.threads t = .getItem key started inLoad generation item)
      (hnow : unixMilli now < item.expiredAt) :
      Step cfg t s (s.goto t (.getRead key started inLoad generation item))
  | getOutdated {s key started inLoad generation item}
      (h : s.threads t = .getRead key started inLoad generation item)
      (hgen : generation ≠ s.cache.generation) :
      Step cfg t s (s.goto t (s.missed cfg key started inLoad))
  | getHit {s key started inLoad generation item}
      (h : s.threads t = .getRead key started inLoad generation item)
      (hgen : generation = s.cache.generation) :
      Step cfg t s (((s.touch item.address).answer key started item.value).goto t .idle)
  -- GetOrLoad
  | directReturn {s key started token} (result : LoadResult V)
      (h : s.threads t = .direct key started token) :
      Step cfg t s ((s.answer key started ⟨result.value, token⟩).goto t .idle)
  | loopHit {s key started item} (now : ℤ) (h : s.threads t = .loop key started)
      (hfree : s.held (cfg.getShard key) = none) (hitem : s.cache.items.load key = some item)
      (hnow : unixMilli now < item.expiredAt) :
      Step cfg t s (((s.touch item.address).answer key started item.value).goto t .idle)
  | loopJoin {s key started load} (now : ℤ) (h : s.threads t = .loop key started)
      (hfree : s.held (cfg.getShard key) = none)
      (hitem : ∀ item ∈ s.cache.items.load key, item.expiredAt ≤ unixMilli now)
      (hload : (s.cache.shards (cfg.getShard key)).inFlight.load key = some load)
      (hgen : (s.loads load).token.generation = s.cache.generation) :
      Step cfg t s (s.goto t (.join key started load))
  | loopFull {s key started} (now : ℤ) (other : K) (load : ℕ) (h : s.threads t = .loop key started)
      (hfree : s.held (cfg.getShard key) = none)
      (hitem : ∀ item ∈ s.cache.items.load key, item.expiredAt ≤ unixMilli now)
      (hnone : (s.cache.shards (cfg.getShard key)).inFlight.load key = none)
      (hfull : cfg.maxEntriesPerShard ≤ (s.cache.shards (cfg.getShard key)).inFlight.size)
      (hload : (s.cache.shards (cfg.getShard key)).inFlight.load other = some load) :
      Step cfg t s (s.goto t (.full key started load))
  | loopLoad {s key started} (now : ℤ) (h : s.threads t = .loop key started)
      (hfree : s.held (cfg.getShard key) = none)
      (hitem : ∀ item ∈ s.cache.items.load key, item.expiredAt ≤ unixMilli now)
      (hload : ∀ load ∈ (s.cache.shards (cfg.getShard key)).inFlight.load key,
        (s.loads load).token.generation ≠ s.cache.generation)
      (hroom : (s.cache.shards (cfg.getShard key)).inFlight.size < cfg.maxEntriesPerShard ∨
        (s.cache.shards (cfg.getShard key)).inFlight.has key = true) :
      Step cfg t s ((s.startLoad (cfg.getShard key) key).goto t (.loading key started s.nextLoad))
  | joined {s key started load result} (h : s.threads t = .join key started load)
      (hdone : (s.loads load).result = some result) :
      Step cfg t s ((s.answer key started ⟨result.value, (s.loads load).token⟩).goto t .idle)
  | retry {s key started load result} (h : s.threads t = .full key started load)
      (hdone : (s.loads load).result = some result) : Step cfg t s (s.goto t (.loop key started))
  | loaded {s key started load} (result : LoadResult V)
      (h : s.threads t = .loading key started load) (hok : result.failed = false) :
      Step cfg t s (s.goto t (.set key ⟨result.value, (s.loads load).token⟩ result.ttl
        (.load started load result)))
  | loadFailed {s key started load} (result : LoadResult V)
      (h : s.threads t = .loading key started load) (hok : result.failed = true) :
      Step cfg t s (s.goto t (.finish key started load result))
  | finished {s key started load result} (h : s.threads t = .finish key started load result)
      (hfree : s.held (cfg.getShard key) = none) :
      Step cfg t s (((s.finishLoad (cfg.getShard key) key load result).answer key started
        ⟨result.value, (s.loads load).token⟩).goto t .idle)
  -- Delete, Clear, DeleteFunc
  | callRemove {s} (removal : Removal K V) (h : s.threads t = .idle) :
      Step cfg t s ({ s with
        cache := bump s.cache
        invalidations := Function.update s.invalidations (s.cache.generation + 1)
          ⟨removal, s.clock, removal.shards cfg, none⟩ }.goto t (.removing (s.cache.generation + 1)))
  | removeShard {s id i rest c} (h : s.threads t = .removing id)
      (hpending : (s.invalidations id).pending = i :: rest) (hfree : s.held i = none)
      (hc : (s.invalidations id).removal.apply cfg s.cache i = some c) :
      Step cfg t s ({ s with
        cache := c
        invalidations := Function.update s.invalidations id
          { s.invalidations id with pending := rest } }.goto t (.removing id))
  | removed {s id} (h : s.threads t = .removing id) (hpending : (s.invalidations id).pending = []) :
      Step cfg t s ({ s with
        invalidations := Function.update s.invalidations id
          { s.invalidations id with returned := some s.clock } }.goto t .idle)
  -- EvictExpired, one shard
  | evict {s c} (now : ℤ) (i : Fin numShards) (h : s.threads t = .idle) (hfree : s.held i = none)
      (hc : evictExpiredLocked now s.cache i = some c) :
      Step cfg t s ({ s with cache := c }.goto t .idle)

def Reachable (cfg : TTLConfig K) (s : System K V) : Prop :=
  Relation.ReflTransGen (fun s s' => ∃ t, Step cfg t s s') System.start s

end RenoP.Cache.TTL
