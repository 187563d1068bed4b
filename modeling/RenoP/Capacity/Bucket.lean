import RenoP.Database.PublicationQuota
import RenoP.Lib.Ledger

/-!
# The counter of a repository

`internal/repositorycapacity/capacity.go`. Each function here is what one hold of the mutex of the
bucket does, or what a call does between two holds. Arithmetic on `int64` is `checked`: a result
outside the type has no value. The epoch counts without wrapping, and `retryAt` is a choice of the
caller: the time is before it or not.
-/

namespace RenoP.Capacity

open RenoP.Database (Text)

def maxInt64 : ℤ := 2 ^ 63 - 1
def minInt64 : ℤ := -2 ^ 63

/-- A result of `int64` arithmetic, none when it overflows. -/
def checked (x : ℤ) : Option ℤ := if minInt64 ≤ x ∧ x ≤ maxInt64 then some x else none

structure Object where
  path : Text
  size : Int64
  deriving DecidableEq

structure Bucket where
  paths : GoMap Text Bool
  active : ℤ
  used : ℤ
  reserved : ℤ
  epoch : ℕ
  initialized : Bool
  loading : Bool
  loadErr : Bool

def Bucket.new : Bucket := ⟨∅, 0, 0, 0, 0, false, false, false⟩

inductive Ready where
  | initialized
  | wait
  | failed
  | load (epoch : ℕ)
  deriving DecidableEq

def Bucket.ready (b : Bucket) (beforeRetry : Bool) : Bucket × Ready :=
  if b.initialized then (b, .initialized)
  else if b.loading ∨ b.active > 0 then (b, .wait)
  else if b.loadErr ∧ beforeRetry then (b, .failed)
  else ({ b with loading := true }, .load b.epoch)

/-- What `load` returned, where a negative sum is an error. -/
def loaded (result : Option ℤ) : Option ℤ := result.filter fun used => decide (0 ≤ used)

def Bucket.install (b : Bucket) (epoch : ℕ) (result : Option ℤ) : Bucket :=
  let b := { b with loading := false }
  match result with
  | some used =>
    if b.epoch = epoch then { b with used := used, initialized := true, loadErr := false } else b
  | none => { b with loadErr := true }

def maxReservedObjects : ℕ := 64

/-- The checks on the objects of `Reserve`. -/
def validObjects (objects : List Object) : Bool :=
  !objects.isEmpty && decide (objects.length ≤ maxReservedObjects) &&
    objects.all (fun object => object.path != [] && decide (0 ≤ object.size.toInt)) &&
    decide (objects.map (·.path)).Nodup

inductive Locked where
  | notReady
  | busy
  | locked (epoch : ℕ)
  deriving DecidableEq

/-- The hold of `Reserve` that locks the paths. -/
def Bucket.lock (b : Bucket) (objects : List Object) : Bucket × Locked :=
  if !b.initialized then (b, .notReady)
  else if objects.any fun object => (b.paths.load object.path).getD false then (b, .busy)
  else ({ b with
    paths := objects.foldl (fun paths object => paths.store object.path true) b.paths
    active := b.active + 1 }, .locked b.epoch)

/-- What `Reserve` adds up over the objects: `previousTotal`, `delta` and `reserved`. -/
structure Measured where
  previousTotal : ℤ
  delta : ℤ
  reserved : ℤ
  deriving DecidableEq

def Measured.zero : Measured := ⟨0, 0, 0⟩

def changeRefused (m : Measured) (delta : ℤ) : Option Bool := do
  if delta > 0 then
    let most ← checked (maxInt64 - delta)
    return decide (m.reserved > most ∨ m.delta > most)
  else if delta < 0 then
    let least ← checked (minInt64 - delta)
    return decide (m.delta < least)
  else return false

/-- One round of the loop over the objects. The outer result is none where an operation overflows,
and the inner one where the round ends with an error. -/
def statObject (m : Measured) (object : Object) (stat : Option ℤ) : Option (Option Measured) :=
  match stat with
  | none => some none
  | some previous =>
    if previous < 0 then some none
    else do
      let room ← checked (maxInt64 - previous)
      if m.previousTotal > room then return none
      let previousTotal ← checked (m.previousTotal + previous)
      let delta ← checked (object.size.toInt - previous)
      if ← changeRefused m delta then return none
      let total ← checked (m.delta + delta)
      let reserved ← checked (m.reserved + max delta 0)
      return some ⟨previousTotal, total, reserved⟩

def Bucket.unlock (b : Bucket) (objects : List Object) : Bucket :=
  { b with
    paths := objects.foldl (fun paths object => paths.delete object.path) b.paths
    active := b.active - 1 }

def Bucket.exceeds (b : Bucket) (limit : ℤ) (m : Measured) : Option Bool := do
  if m.reserved ≤ 0 then return false
  if b.used > limit then return true
  let free ← checked (limit - b.used)
  if b.reserved > free then return true
  let room ← checked (free - b.reserved)
  return decide (m.reserved > room)

inductive Admitted where
  | failed
  | retry
  | exceeded
  | admitted
  deriving DecidableEq

def Bucket.compare (b : Bucket) (m : Measured) : Bucket :=
  if m.previousTotal > b.used then { b with initialized := false, epoch := b.epoch + 1 } else b

/-- The last hold of `Reserve`; the measurement is none after an error. -/
def Bucket.grant (b : Bucket) (limit : ℤ) (objects : List Object) (epoch : ℕ)
    (result : Option Measured) : Option (Bucket × Admitted) :=
  match result with
  | none => some (b.unlock objects, .failed)
  | some m =>
    let b := b.compare m
    if !b.initialized ∨ b.epoch ≠ epoch then some (b.unlock objects, .retry)
    else do
      if ← b.exceeds limit m then return (b.unlock objects, .exceeded)
      let reserved ← checked (b.reserved + m.reserved)
      return ({ b with reserved := reserved }, .admitted)

def Bucket.finish (b : Bucket) (objects : List Object) (delta reserved : ℤ) (success : Bool) :
    Option Bucket := do
  let left ← checked (b.reserved - reserved)
  let b := { b.unlock objects with reserved := left }
  if success then
    let used ← checked (b.used + delta)
    return { b with used := used }
  else return { b with initialized := false, epoch := b.epoch + 1 }

def Bucket.invalidate (b : Bucket) : Bucket :=
  { b with initialized := false, loadErr := false, epoch := b.epoch + 1 }

end RenoP.Capacity

/-!
## Writers of a repository

The calls on one bucket, interleaved. A thread is between two holds of the mutex at each of its
positions, and an action is one hold, one answer of `load` or `stat`, one write of an object, or one
deletion.
-/

namespace RenoP.Capacity

open RenoP.Database (Text)

/-- An object with the size that `stat` returned for it. -/
abbrev Measure := Object × ℤ

def Measure.path (e : Measure) : Text := e.1.path
def Measure.size (e : Measure) : ℤ := e.1.size.toInt

/-- The position of a thread. A thread that is nowhere makes no call. -/
inductive Pc where
  | ready (objects : List Object)
  | load (objects : List Object) (epoch : ℕ)
  | install (objects : List Object) (epoch : ℕ) (result : Option ℤ)
  | lock (objects : List Object)
  | stat (done : List Measure) (rest : List Object) (epoch : ℕ) (m : Measured)
  | grant (done : List Measure) (rest : List Object) (epoch : ℕ) (result : Option Measured)
  /-- has a reservation, and has written these paths -/
  | held (done : List Measure) (delta reserved : ℤ) (written : List Text)
  | deleted

def Pc.objects : Pc → List Object
  | .stat done rest _ _ | .grant done rest _ _ => done.map Prod.fst ++ rest
  | .held done _ _ _ => done.map Prod.fst
  | _ => []

structure System where
  bucket : Bucket
  stored : GoMap Text ℕ
  threads : GoMap ℕ Pc
  overflow : Bool

def System.bytes (s : System) : ℤ := Ledger.total (Ledger.ofMap s.stored)

/-- What `stat` returns for a path. -/
def System.statSize (s : System) (path : Text) : ℤ := Ledger.amount s.stored path

inductive Action where
  | reserve (thread : ℕ) (objects : List Object)
  | ready (thread : ℕ) (beforeRetry : Bool)
  | load (thread : ℕ) (fails : Bool)
  | install (thread : ℕ)
  | lock (thread : ℕ)
  | stat (thread : ℕ) (fails : Bool)
  | statEnd (thread : ℕ) (cancelled : Bool)
  | grant (thread : ℕ)
  | cancel (thread : ℕ)
  | write (thread : ℕ) (path : Text)
  | commit (thread : ℕ)
  | release (thread : ℕ)
  | delete (thread : ℕ) (path : Text)
  | invalidate (thread : ℕ)

variable (limit : Int64)

def System.goto (s : System) (thread : ℕ) (pc : Pc) : System :=
  { s with threads := s.threads.store thread pc }

def System.leave (s : System) (thread : ℕ) : System :=
  { s with threads := s.threads.delete thread }

def System.overflows (s : System) : System := { s with overflow := true }

/-- The next position after a hold of `ready`. -/
def System.afterReady (s : System) (thread : ℕ) (objects : List Object) : Ready → System
  | .initialized => s.goto thread (.lock objects)
  | .wait => s
  | .failed => s.leave thread
  | .load epoch => s.goto thread (.load objects epoch)

def System.afterLock (s : System) (thread : ℕ) (objects : List Object) : Locked → System
  | .notReady | .busy => s.goto thread (.ready objects)
  | .locked epoch => s.goto thread (.stat [] objects epoch .zero)

def System.statNext (s : System) (thread : ℕ) (done : List Measure) (object : Object)
    (rest : List Object) (epoch : ℕ) (m : Measured) (fails : Bool) : System :=
  match statObject m object (if fails then none else some (s.statSize object.path)) with
  | none => s.overflows
  | some none => s.goto thread (.grant done (object :: rest) epoch none)
  | some (some m) =>
    s.goto thread (.stat (done ++ [(object, s.statSize object.path)]) rest epoch m)

def System.afterAdmit (s : System) (thread : ℕ) (done : List Measure) (rest : List Object)
    (result : Option Measured) : Admitted → System
  | .failed | .exceeded => s.leave thread
  | .retry => s.goto thread (.ready (done.map Prod.fst ++ rest))
  | .admitted =>
    match result with
    | none => s
    | some m => s.goto thread (.held done m.delta m.reserved [])

def System.finishNext (s : System) (thread : ℕ) (done : List Measure) (delta reserved : ℤ)
    (success : Bool) : System :=
  match s.bucket.finish (done.map Prod.fst) delta reserved success with
  | none => s.overflows
  | some b => { s with bucket := b }.leave thread

/-- An action that the position of its thread does not allow changes nothing. -/
def System.next (s : System) : Action → System
  | .reserve thread objects =>
    match s.threads.load thread with
    | none => if validObjects objects then s.goto thread (.ready objects) else s
    | some _ => s
  | .ready thread beforeRetry =>
    match s.threads.load thread with
    | some (.ready objects) =>
      let (b, result) := s.bucket.ready beforeRetry
      { s with bucket := b }.afterReady thread objects result
    | _ => s
  | .load thread fails =>
    match s.threads.load thread with
    | some (.load objects epoch) =>
      s.goto thread (.install objects epoch (loaded (if fails then none else some s.bytes)))
    | _ => s
  | .install thread =>
    match s.threads.load thread with
    | some (.install objects epoch result) =>
      let s := { s with bucket := s.bucket.install epoch result }
      if result.isSome then s.goto thread (.ready objects) else s.leave thread
    | _ => s
  | .lock thread =>
    match s.threads.load thread with
    | some (.lock objects) =>
      let (b, result) := s.bucket.lock objects
      { s with bucket := b }.afterLock thread objects result
    | _ => s
  | .stat thread fails =>
    match s.threads.load thread with
    | some (.stat done (object :: rest) epoch m) => s.statNext thread done object rest epoch m fails
    | _ => s
  | .statEnd thread cancelled =>
    match s.threads.load thread with
    | some (.stat done [] epoch m) =>
      s.goto thread (.grant done [] epoch (if cancelled then none else some m))
    | _ => s
  | .grant thread =>
    match s.threads.load thread with
    | some (.grant done rest epoch result) =>
      match s.bucket.grant limit.toInt (done.map Prod.fst ++ rest) epoch result with
      | none => s.overflows
      | some (b, admitted) => { s with bucket := b }.afterAdmit thread done rest result admitted
    | _ => s
  | .cancel thread =>
    match s.threads.load thread with
    | some (.ready _) => s.leave thread
    | _ => s
  | .write thread path =>
    match s.threads.load thread with
    | some (.held done delta reserved written) =>
      match done.find? fun e => e.path == path with
      | none => s
      | some e =>
        { s with stored := s.stored.store path e.size.toNat }.goto thread
          (.held done delta reserved (path :: written))
    | _ => s
  | .commit thread =>
    match s.threads.load thread with
    | some (.held done delta reserved written) =>
      -- a reservation is committed when all of its objects are written
      if done.all fun e => written.contains e.path then
        s.finishNext thread done delta reserved true
      else s
    | _ => s
  | .release thread =>
    match s.threads.load thread with
    | some (.held done delta reserved _) => s.finishNext thread done delta reserved false
    | _ => s
  | .delete thread path =>
    match s.threads.load thread with
    | none | some .deleted => { s with stored := s.stored.delete path }.goto thread .deleted
    | _ => s
  | .invalidate thread =>
    match s.threads.load thread with
    | none | some .deleted => { s with bucket := s.bucket.invalidate }.leave thread
    | _ => s

def System.start (stored : GoMap Text ℕ) : System := ⟨.new, stored, ∅, false⟩

end RenoP.Capacity
