import RenoP.Lib.Ledger
import RenoP.Lib.TrimSpace
import Mathlib.Data.UInt

/-!
# Download counters

The aggregates of one instance: an event is normalised and added to the pending values of its key,
and the batches that a flush has taken come back when the store refuses them.
-/

namespace RenoP.Statistics

open TrimSpace (Bytes trimSpace)
open Placement (posted posted_cons)
open Ledger (balance balance_cons)

def ascii (text : String) : Bytes := text.toList.map fun c => c.toNat.toUInt8

structure DownloadKey where
  username : Bytes
  repository : Bytes
  format : Bytes
  namespaceName : Bytes
  packageName : Bytes
  version : Bytes
deriving DecidableEq, Repr

structure DownloadValue where
  count : ℤ := 0
  bytes : ℤ := 0
  updatedAt : ℤ := 0
deriving DecidableEq, Repr

structure DownloadStatisticDelta where
  username : Bytes
  repository : Bytes
  format : Bytes
  namespaceName : Bytes
  package : Bytes
  version : Bytes
  count : ℤ
  bytes : ℤ
  updatedAt : ℤ
deriving DecidableEq, Repr

def runeStart (b : UInt8) : Bool := decide (b &&& 0xC0 ≠ 0x80)

def cutBefore (value : Bytes) : ℕ → ℕ
  | 0 => 0
  | n + 1 => if runeStart (value.getD (n + 1) 0) then n + 1 else cutBefore value n

def boundedStatisticValue (value : Bytes) (limit : ℕ) : Bytes :=
  let value := trimSpace value
  if value.length ≤ limit then value
  else trimSpace (value.take (cutBefore value limit))

def repositoryFormatMaven : Bytes := ascii "maven"

def repositoryFormatMavenClassic : Bytes := ascii "maven-classic"

def repositoryFormats : List Bytes :=
  [repositoryFormatMaven, repositoryFormatMavenClassic, ascii "files", ascii "cargo",
    ascii "docker", ascii "npm", ascii "conan", ascii "conda", ascii "conda-native", ascii "apk",
    ascii "apt", ascii "rpm", ascii "yum", ascii "github", ascii "gitlab"]

section Normalize

-- `strings.ToLower`
variable (toLower : Bytes → Bytes)

def isSupportedRepositoryFormat (format : Bytes) : Bool :=
  let format := toLower (trimSpace format)
  let format := if format = [] then repositoryFormatMaven else format
  repositoryFormats.contains format

def normalizeDownloadEvent (event : DownloadStatisticDelta) (now : ℤ) :
    Option (DownloadKey × DownloadValue) :=
  let repository := toLower (boundedStatisticValue event.repository 64)
  let format := toLower (boundedStatisticValue event.format 32)
  if repository = [] ∨ isSupportedRepositoryFormat toLower format = false then none
  else
    let format :=
      if format = repositoryFormatMavenClassic then repositoryFormatMaven else format
    let count := if event.count ≤ 0 then 1 else event.count
    let updatedAt := if event.updatedAt ≤ 0 then now else event.updatedAt
    some
      ({ username := toLower (boundedStatisticValue event.username 255)
         repository, format
         namespaceName := toLower (boundedStatisticValue event.namespaceName 253)
         packageName := boundedStatisticValue event.package 512
         version := boundedStatisticValue event.version 255 },
       { count, bytes := max event.bytes 0, updatedAt })

theorem normalizeDownloadEvent_pos {event : DownloadStatisticDelta} {now : ℤ} {key : DownloadKey}
    {value : DownloadValue} (h : normalizeDownloadEvent toLower event now = some (key, value)) :
    0 < value.count ∧ 0 ≤ value.bytes := by
  unfold normalizeDownloadEvent at h
  dsimp only at h
  split_ifs at h with hrefused hcount
  all_goals
    cases h
    dsimp only
    omega

end Normalize

abbrev Values := GoMap DownloadKey DownloadValue

def merge (m : Values) (key : DownloadKey) (value : DownloadValue) : Values :=
  let current := (m.load key).getD {}
  m.store key
    { count := current.count + value.count
      bytes := current.bytes + value.bytes
      updatedAt := max current.updatedAt value.updatedAt }

def mergeAll (m : Values) (entries : List (DownloadKey × DownloadValue)) : Values :=
  entries.foldl (fun m e => merge m e.1 e.2) m

/-- `Record` of a normalised event under the lock: the pending values, or none when the event is
dropped. -/
def recordPending (maxPendingKeys : ℕ) (pending : Values) (key : DownloadKey)
    (value : DownloadValue) : Option Values :=
  if pending.has key = false ∧ maxPendingKeys ≤ pending.size then none
  else some (merge pending key value)

def downloadEvents (order : GoMap.RangeOrder DownloadKey DownloadValue) (batch : Values) :
    List DownloadStatisticDelta :=
  (order.pairs batch).map fun e =>
    { username := e.1.username, repository := e.1.repository, format := e.1.format
      namespaceName := e.1.namespaceName, package := e.1.packageName, version := e.1.version
      count := e.2.count, bytes := e.2.bytes, updatedAt := e.2.updatedAt }

def requeueEntry (maxPendingKeys : ℕ) (s : Values × ℤ) (e : DownloadKey × DownloadValue) :
    Values × ℤ :=
  match recordPending maxPendingKeys s.1 e.1 e.2 with
  | none => (s.1, s.2 + e.2.count)
  | some pending => (pending, s.2)

def requeue (maxPendingKeys : ℕ) (order : GoMap.RangeOrder DownloadKey DownloadValue)
    (pending batch : Values) : Values × ℤ :=
  (order.pairs batch).foldl (requeueEntry maxPendingKeys) (pending, 0)

def removeRepository (pending : Values) (repository : Bytes) : Values × Values :=
  (pending.deleteWhere fun key _ => decide (key.repository = repository),
   pending.deleteWhere fun key _ => decide (key.repository ≠ repository))

def DownloadStatisticDelta.key (event : DownloadStatisticDelta) : DownloadKey where
  username := event.username
  repository := event.repository
  format := event.format
  namespaceName := event.namespaceName
  packageName := event.package
  version := event.version

def DownloadStatisticDelta.value (event : DownloadStatisticDelta) : DownloadValue where
  count := event.count
  bytes := event.bytes
  updatedAt := event.updatedAt

def batchIncrementDownloadStatistics (rows : Values) (events : List DownloadStatisticDelta) :
    Values :=
  mergeAll rows (events.map fun event => (event.key, event.value))

def resetDownloadStatistics (rows : Values) (repository : Bytes) : Values :=
  rows.deleteWhere fun key _ => decide (key.repository = repository)

inductive Field where
  | count
  | bytes
deriving DecidableEq, Repr

def DownloadValue.get (value : DownloadValue) : Field → ℤ
  | .count => value.count
  | .bytes => value.bytes

def Values.amount (m : Values) (field : Field) (key : DownloadKey) : ℤ :=
  GoMap.weight (fun _ value => value.get field) m key

variable {m : Values} {key : DownloadKey} {value : DownloadValue} {field : Field}

theorem amount_merge (m : Values) (key : DownloadKey) (value : DownloadValue) (field : Field)
    (key' : DownloadKey) :
    (merge m key value).amount field key' =
      m.amount field key' + if key' = key then value.get field else 0 := by
  unfold Values.amount GoMap.weight merge
  dsimp only
  rw [GoMap.load_store]
  by_cases hkey : key' = key
  · subst hkey
    rw [if_pos rfl, if_pos rfl]
    cases m.load key' <;> cases field <;> simp [DownloadValue.get]
  · rw [if_neg hkey, if_neg hkey, add_zero]

theorem has_merge (m : Values) (key key' : DownloadKey) (value : DownloadValue) :
    (merge m key value).has key' = (decide (key' = key) || m.has key') := by
  unfold merge GoMap.has
  dsimp only
  rw [GoMap.load_store]
  by_cases hkey : key' = key
  · simp [hkey]
  · simp [hkey]

theorem size_merge (m : Values) (key : DownloadKey) (value : DownloadValue) :
    (merge m key value).size = m.size + if m.has key then 0 else 1 := by
  have hsize := GoMap.size_store m key
    { count := ((m.load key).getD {}).count + value.count
      bytes := ((m.load key).getD {}).bytes + value.bytes
      updatedAt := max ((m.load key).getD {}).updatedAt value.updatedAt }
  unfold merge
  dsimp only
  split_ifs at hsize ⊢ <;> omega

theorem recordPending_cases (maxPendingKeys : ℕ) (pending : Values) (key : DownloadKey)
    (value : DownloadValue) :
    recordPending maxPendingKeys pending key value = none ∨
      recordPending maxPendingKeys pending key value = some (merge pending key value) ∧
        (pending.size ≤ maxPendingKeys → (merge pending key value).size ≤ maxPendingKeys) := by
  unfold recordPending
  split_ifs with hfull
  · exact Or.inl rfl
  · refine Or.inr ⟨rfl, fun hsize => ?_⟩
    rw [size_merge]
    split_ifs with hhas
    · exact hsize
    · have hroom : ¬maxPendingKeys ≤ pending.size := fun hle =>
        hfull ⟨Bool.not_eq_true _ ▸ hhas, hle⟩
      omega

theorem has_mergeAll (entries : List (DownloadKey × DownloadValue)) (key : DownloadKey) :
    ∀ m : Values,
      (mergeAll m entries).has key = (m.has key || (entries.map Prod.fst).contains key) := by
  unfold mergeAll
  induction entries with
  | nil =>
    intro m
    simp
  | cons e entries ih =>
    intro m
    rw [List.foldl_cons, ih, has_merge]
    simp [Bool.or_assoc, Bool.or_left_comm, beq_eq_decide]

theorem amount_mergeAll (entries : List (DownloadKey × DownloadValue)) (field : Field)
    (key : DownloadKey) :
    ∀ m : Values, (mergeAll m entries).amount field key =
      m.amount field key + balance (posted (·.get field) entries) key := by
  unfold mergeAll
  induction entries with
  | nil =>
    intro m
    exact (add_zero _).symm
  | cons e entries ih =>
    intro m
    rw [List.foldl_cons, ih, amount_merge, posted_cons, balance_cons]
    simp only [eq_comm, add_assoc]

theorem amount_pairs (order : GoMap.RangeOrder DownloadKey DownloadValue) (m : Values)
    (field : Field) (key : DownloadKey) :
    balance (posted (·.get field) (order.pairs m)) key = m.amount field key :=
  Ledger.balance_pairs order m (·.get field) key

theorem amount_deleteWhere (m : Values) (p : DownloadKey → Bool) (field : Field)
    (key : DownloadKey) :
    Values.amount (m.deleteWhere fun key _ => p key) field key =
      if p key then 0 else m.amount field key := by
  unfold Values.amount GoMap.weight
  rw [GoMap.load_deleteWhere]
  cases hp : p key with
  | true => cases m.load key <;> rfl
  | false => cases m.load key <;> rfl

theorem amount_batchIncrement (order : GoMap.RangeOrder DownloadKey DownloadValue)
    (rows batch : Values) (field : Field) (key : DownloadKey) :
    (batchIncrementDownloadStatistics rows (downloadEvents order batch)).amount field key =
      rows.amount field key + batch.amount field key := by
  have hentries : (downloadEvents order batch).map (fun event => (event.key, event.value)) =
      order.pairs batch := by
    unfold downloadEvents
    rw [List.map_map]
    exact List.map_id _
  unfold batchIncrementDownloadStatistics
  rw [hentries, amount_mergeAll, amount_pairs]

theorem restored (order : GoMap.RangeOrder DownloadKey DownloadValue) (pending : Values)
    (repository : Bytes) :
    let split := removeRepository pending repository
    let again := mergeAll split.1 (order.pairs split.2)
    again.size = pending.size ∧
      ∀ field key, again.amount field key = pending.amount field key := by
  dsimp only [removeRepository]
  constructor
  · apply GoMap.size_congr
    intro key
    rw [has_mergeAll, order.pairs_keys, Bool.eq_iff_iff, Bool.or_eq_true, List.contains_iff_mem,
      order.mem_keys, GoMap.has, GoMap.has, GoMap.has, GoMap.load_deleteWhere,
      GoMap.load_deleteWhere]
    by_cases hkey : key.repository = repository
    · cases pending.load key <;> simp [Option.filter, hkey]
    · cases pending.load key <;> simp [Option.filter, hkey]
  · intro field key
    rw [amount_mergeAll, amount_pairs, amount_deleteWhere, amount_deleteWhere]
    by_cases hkey : key.repository = repository
    · simp [hkey]
    · simp [hkey]

end RenoP.Statistics
