import RenoP.Lib.GoMap
import RenoP.Lib.FaultyProgram
import Mathlib.Data.Finset.Prod

/-!
# The tables of ClickHouse

`internal/database/clickhouse_transaction.go`: a data table maps `_renop_key` to the row and an
insert replaces the row of its key. The journal and the key list are tables of the same kind; a
snapshot table is a plain list of rows. Each statement that the transaction code sends is one
function of the store, `none` where the server refuses it.
-/

namespace RenoP.Database.ClickHouse

variable {Row : Type}

abbrev Tables (Row : Type) := String → GoMap String Row

structure Store (Row : Type) where
  tables : Tables Row
  /-- `_renop_transaction_journal`: the snapshot of a transaction and a table -/
  journal : GoMap (String × String) String
  /-- `_renop_transaction_keys`: transaction, table and row key -/
  keys : Finset (String × String × String)
  /-- the tables whose names start with `_renop_tx_` -/
  snapshots : GoMap String (List (String × Row))

def validClickHouseIdentifier (value : String) : Bool :=
  value != "" && value.toList.all fun c =>
    c == '_' || ('a' ≤ c && c ≤ 'z') || ('A' ≤ c && c ≤ 'Z') || ('0' ≤ c && c ≤ '9')

def createSnapshot (snapshot : String) (s : Store Row) : Option (Store Row) :=
  if s.snapshots.has snapshot then none
  else some { s with snapshots := s.snapshots.store snapshot [] }

def dropSnapshot (snapshot : String) (s : Store Row) : Option (Store Row) :=
  some { s with snapshots := s.snapshots.delete snapshot }

def insertJournal (id table snapshot : String) (s : Store Row) : Option (Store Row) :=
  some { s with journal := s.journal.store (id, table) snapshot }

/-- `DELETE FROM journal WHERE transaction_id = ? AND table_name = ?` -/
def deleteJournal (id table : String) (s : Store Row) : Option (Store Row) :=
  some { s with journal := s.journal.delete (id, table) }

def insertKey (id table key : String) (s : Store Row) : Option (Store Row) :=
  some { s with keys := insert (id, table, key) s.keys }

/-- `DELETE FROM keys WHERE transaction_id = ? AND table_name = ?` -/
def deleteKeys (id table : String) (s : Store Row) : Option (Store Row) :=
  some { s with keys := s.keys.filter fun k => k.1 ≠ id ∨ k.2.1 ≠ table }

/-- `DELETE FROM keys WHERE transaction_id NOT IN (SELECT transaction_id FROM journal)` -/
def deleteOrphanKeys (s : Store Row) : Option (Store Row) :=
  some { s with keys := s.keys.filter fun k => k.1 ∈ s.journal.keys.map Prod.fst }

/-- `INSERT INTO snapshot SELECT * FROM table WHERE _renop_key = ?` -/
def snapshotRow (snapshot table key : String) (s : Store Row) : Option (Store Row) :=
  (s.snapshots.load snapshot).map fun rows => { s with
    snapshots := s.snapshots.store snapshot
      (rows ++ (((s.tables table).load key).map fun row => (key, row)).toList) }

/-- `DELETE FROM table WHERE _renop_key IN (SELECT row_key FROM keys WHERE ...)` -/
def deleteRows (id table : String) (s : Store Row) : Option (Store Row) :=
  some { s with
    tables := Function.update s.tables table
      ((s.tables table).deleteWhere fun key _ => (id, table, key) ∈ s.keys) }

def insertRows (table snapshot : String) (s : Store Row) : Option (Store Row) :=
  (s.snapshots.load snapshot).map fun rows => { s with
    tables := Function.update s.tables table ((s.tables table).storeAll rows) }

/-- What `clickHouseMutationPattern` lets through. A condition may read any table. -/
inductive Mutation (Row : Type) where
  | insert (table : String) (rows : List (String × Row)) (cond : Tables Row → Bool)
  -- an INSERT whose keys cannot be read off its text
  | insertUnread (table err : String)
  | alter (table : String) (cond : Tables Row → String → Row → Bool)
      (set : Tables Row → String → Row → Row)
  | delete (table : String) (cond : Tables Row → String → Row → Bool)
  | truncate (table : String)

def Mutation.table : Mutation Row → String
  | .insert table _ _ => table
  | .insertUnread table _ => table
  | .alter table _ _ => table
  | .delete table _ => table
  | .truncate table => table

/-- `SELECT _renop_key FROM table WHERE ...` -/
def selectKeys (table : GoMap String Row) (cond : String → Row → Bool) : List String :=
  (table.entries.filter fun e => cond e.1 e.2).map fun e => e.1

def Mutation.keys (m : Mutation Row) (tables : Tables Row) : List String :=
  match m with
  | .insert _ rows _ => rows.map Prod.fst
  | .insertUnread _ _ => []
  | .alter table cond _ => selectKeys (tables table) (cond tables)
  | .delete table cond => selectKeys (tables table) (cond tables)
  | .truncate table => selectKeys (tables table) fun _ _ => true

def Mutation.run (m : Mutation Row) (tables : Tables Row) : GoMap String Row :=
  match m with
  | .insert table rows cond =>
    if cond tables then (tables table).storeAll rows else tables table
  | .insertUnread table _ => tables table
  | .alter table cond set => (tables table).updateWhere (cond tables) (set tables)
  | .delete table cond => (tables table).deleteWhere (cond tables)
  | .truncate _ => ∅

def Mutation.apply (m : Mutation Row) (s : Store Row) : Option (Store Row) :=
  some { s with tables := Function.update s.tables m.table (m.run s.tables) }

theorem not_mem_selectKeys {table : GoMap String Row} {cond : String → Row → Bool} {key : String}
    {row : Row} (h : key ∉ selectKeys table cond) (hload : table.load key = some row) :
    cond key row = false := by
  by_contra hcond
  apply h
  refine List.mem_map.mpr ⟨⟨key, row⟩, List.mem_filter.mpr ⟨?_, ?_⟩, rfl⟩
  · exact (GoMap.mem_entries_iff table key row).mpr hload
  · exact Bool.eq_true_of_not_eq_false hcond

theorem Mutation.run_load (m : Mutation Row) (tables : Tables Row) {key : String}
    (h : key ∉ m.keys tables) : (m.run tables).load key = (tables m.table).load key := by
  cases m with
  | insert table rows cond =>
    show (if cond tables then (tables table).storeAll rows else tables table).load key =
      (tables table).load key
    split_ifs
    · rcases (tables table).load_storeAll rows key with ⟨v, hv, -⟩ | ⟨-, hload⟩
      · exact absurd (List.mem_map.mpr ⟨(key, v), hv, rfl⟩) h
      · exact hload
    · rfl
  | insertUnread table err => rfl
  | alter table cond set =>
    show ((tables table).updateWhere (cond tables) (set tables)).load key = (tables table).load key
    rw [GoMap.load_updateWhere]
    cases hload : (tables table).load key with
    | none => rfl
    | some row =>
      have hcond : cond tables key row = false := not_mem_selectKeys h hload
      rw [Option.map_some, hcond]
      rfl
  | delete table cond =>
    show ((tables table).deleteWhere (cond tables)).load key = (tables table).load key
    rw [GoMap.load_deleteWhere]
    cases hload : (tables table).load key with
    | none => rfl
    | some row =>
      have hcond : cond tables key row = false := not_mem_selectKeys h hload
      rw [Option.filter_some, hcond]
      rfl
  | truncate table =>
    show none = (tables table).load key
    cases hload : (tables table).load key with
    | none => rfl
    | some row =>
      replace h : key ∉ selectKeys (tables table) fun _ _ => true := h
      cases not_mem_selectKeys h hload

end RenoP.Database.ClickHouse

/-!
## ClickHouse transactions

`internal/database/clickhouse_transaction.go` and the transaction part of `clickhouse.go`, statement
by statement. A range over `tx.snapshots` and a query without an order visit the rows in any order.
`errors.Join` is the concatenation of lists of errors, `nil` the empty one.
-/

namespace RenoP.Database.ClickHouse

variable {Row : Type}

/-- `clickHouseTransaction`. The id comes from `id.New`, which writes letters and digits. -/
structure Tx where
  id : String
  snapshots : GoMap String String
  closed : Bool
  id_valid : validClickHouseIdentifier id = true

def errTxDone : String := "sql: transaction has already been committed or rolled back"

def Tx.begin (id : String) (id_valid : validClickHouseIdentifier id = true) : Tx where
  id := id
  snapshots := ∅
  closed := false
  id_valid := id_valid

def Tx.finish (tx : Tx) : Tx := { tx with closed := true }

def Mutation.mutationKeys (m : Mutation Row) :
    Program (Store Row) (Except String (List String)) :=
  match m with
  | .insert _ rows _ => .done (.ok (rows.map Prod.fst))
  | .insertUnread _ err => .done (.error err)
  | m => .query fun
    | .error err =>
      .done (.error ("list ClickHouse transaction keys for " ++ m.table ++ ": " ++ err))
    | .ok s => .done (.ok (m.keys s.tables))

def snapshotKeys (id table snapshot : String) : List String → Program (Store Row) (Option String)
  | [] => .done none
  | key :: keys => .query fun
    | .error err =>
      .done (some ("inspect ClickHouse transaction key for " ++ table ++ ": " ++ err))
    | .ok s =>
      if (id, table, key) ∈ s.keys then snapshotKeys id table snapshot keys
      else .exec (snapshotRow snapshot table key) fun
        | some err => .done (some ("snapshot ClickHouse row in " ++ table ++ ": " ++ err))
        | none => .exec (insertKey id table key) fun
          | some err =>
            .done (some ("record ClickHouse transaction key for " ++ table ++ ": " ++ err))
          | none => snapshotKeys id table snapshot keys

/-- `ensureSnapshot` once the table has its snapshot. -/
def Tx.recordKeys (tx : Tx) (m : Mutation Row) (snapshot : String) :
    Program (Store Row) (Tx × Option String) :=
  m.mutationKeys.bind fun
    | .error err => .done (tx, some err)
    | .ok keys => (snapshotKeys tx.id m.table snapshot keys).bind fun err => .done (tx, err)

def Tx.snapshotName (tx : Tx) : String :=
  "_renop_tx_" ++ tx.id ++ "_" ++ toString tx.snapshots.size

def Tx.ensureSnapshot (tx : Tx) (m : Mutation Row) : Program (Store Row) (Tx × Option String) :=
  if validClickHouseIdentifier m.table = false then
    .done (tx, some ("invalid ClickHouse transaction table " ++ m.table.quote))
  else match tx.snapshots.load m.table with
  | some snapshot => tx.recordKeys m snapshot
  | none => .exec (createSnapshot tx.snapshotName) fun
    | some err => .done (tx, some
        ("create ClickHouse transaction snapshot for " ++ m.table ++ ": " ++ err))
    | none => .exec (insertJournal tx.id m.table tx.snapshotName) fun
      | some err => .exec (dropSnapshot tx.snapshotName) fun _ => .done (tx, some
          ("record ClickHouse transaction snapshot for " ++ m.table ++ ": " ++ err))
      | none => Tx.recordKeys { tx with
          snapshots := tx.snapshots.store m.table tx.snapshotName } m tx.snapshotName

def Mutation.execUnlocked (m : Mutation Row) : Program (Store Row) (Option String) :=
  match m with
  | .alter .. | .delete .. => .query fun
    | .error err => .done (some err)
    | .ok _ => .exec m.apply fun err => .done err
  | _ => .exec m.apply fun err => .done err

def Tx.exec (tx : Tx) (m : Mutation Row) : Program (Store Row) (Tx × Option String) :=
  if tx.closed then .done (tx, some errTxDone)
  else (tx.ensureSnapshot m).bind fun
    | (tx, some err) => .done (tx, some err)
    | (tx, none) => m.execUnlocked.bind fun err => .done (tx, err)

/-- `restoreSnapshot` from the deletion of the keys on. -/
def forgetSnapshot (id table snapshot : String) («exists» : Bool) :
    Program (Store Row) (Option String) :=
  .exec (deleteKeys id table) fun
    | some err => .done (some err)
    | none => .exec (deleteJournal id table) fun
      | some err => .done (some err)
      | none =>
        if «exists» then .exec (dropSnapshot snapshot) fun
          | some err => .done (some
              ("remove restored ClickHouse transaction snapshot " ++ snapshot ++ ": " ++ err))
          | none => .done none
        else .done none

def restoreSnapshot (id table snapshot : String) : Program (Store Row) (Option String) :=
  if validClickHouseIdentifier table = false ∨ validClickHouseIdentifier snapshot = false then
    .done (some "invalid ClickHouse transaction journal entry")
  else .query fun
    | .error err => .done (some err)
    | .ok s =>
      if s.snapshots.has snapshot then .exec (deleteRows id table) fun
        | some err => .done (some
            ("remove changed ClickHouse rows from " ++ table ++ " during rollback: " ++ err))
        | none => .exec (insertRows table snapshot) fun
          | some err => .done (some ("restore ClickHouse table " ++ table ++ ": " ++ err))
          | none => forgetSnapshot id table snapshot true
      else forgetSnapshot id table snapshot false

def restoreTables (id : String) : List (String × String) → Program (Store Row) (List String)
  | [] => .done []
  | (table, snapshot) :: rest => (restoreSnapshot id table snapshot).bind fun err =>
    (restoreTables id rest).bind fun errs => .done (err.toList ++ errs)

def Tx.restoreSnapshots (tx : Tx) (order : GoMap.RangeOrder String String) :
    Program (Store Row) (List String) :=
  restoreTables tx.id (order.pairs tx.snapshots)

def Tx.rollback (tx : Tx) (order : GoMap.RangeOrder String String) :
    Program (Store Row) (Tx × List String) :=
  if tx.closed then .done (tx, [errTxDone])
  else (tx.restoreSnapshots order).bind fun errs => .done (tx.finish, errs)

/-- The loop of `commit`; the errors of the last two statements are only logged. -/
def Tx.commitTables (tx : Tx) (restoring : GoMap.RangeOrder String String) :
    List (String × String) → Program (Store Row) (List String)
  | [] => .done []
  | (table, snapshot) :: rest => .exec (deleteJournal tx.id table) fun
    | some err => (tx.restoreSnapshots restoring).bind fun errs => .done (err :: errs)
    | none => .exec (deleteKeys tx.id table) fun _ =>
      .exec (dropSnapshot snapshot) fun _ => tx.commitTables restoring rest

def Tx.commit (tx : Tx) (committing restoring : GoMap.RangeOrder String String) :
    Program (Store Row) (Tx × List String) :=
  if tx.closed then .done (tx, [errTxDone])
  else (tx.commitTables restoring (committing.pairs tx.snapshots)).bind fun errs =>
    .done (tx.finish, errs)

def restoreEntries :
    List ((String × String) × String) → Program (Store Row) (Option String)
  | [] => .done none
  | ((id, table), snapshot) :: rest => (restoreSnapshot id table snapshot).bind fun
    | some err => .done (some err)
    | none => restoreEntries rest

/-- The rest of `recoverTransactions`; the rows of the second query may break off between two. -/
def dropOrphans (active : List String) : List String → Program (Store Row) (Option String)
  | [] => .query fun
    | .error err => .done (some err)
    | .ok _ => .exec deleteOrphanKeys fun
      | some err => .done (some ("remove orphaned ClickHouse transaction keys: " ++ err))
      | none => .done none
  | name :: rest => .query fun
    | .error err => .done (some err)
    | .ok _ =>
      if name ∉ active ∧ validClickHouseIdentifier name = true then
        .exec (dropSnapshot name) fun
          | some err => .done (some
              ("remove orphaned ClickHouse transaction snapshot " ++ name ++ ": " ++ err))
          | none => dropOrphans active rest
      else dropOrphans active rest

structure RecoveryOrder (Row : Type) where
  entries : GoMap.RangeOrder (String × String) String
  orphans : GoMap.RangeOrder String (List (String × Row))

def recoverTransactions (order : RecoveryOrder Row) : Program (Store Row) (Option String) :=
  .query fun
    | .error err => .done (some err)
    | .ok s => (restoreEntries (order.entries.pairs s.journal)).bind fun
      | some err => .done (some err)
      | none => .query fun
        | .error err => .done (some err)
        | .ok t => dropOrphans ((order.entries.pairs s.journal).map Prod.snd)
            ((order.orphans.keys t.snapshots).filter fun name => name.startsWith "_renop_tx_")

inductive Execs : Tx → Store Row → Tx → Store Row → Prop
  | none {tx s} : Execs tx s tx s
  | exec {tx s tx' s' r s''} (h : Execs tx s tx' s') (m : Mutation Row)
      (hexec : (tx'.exec m).Ends s' (some r) s'') : Execs tx s r.1 s''

inductive Recovers : Store Row → Store Row → Prop
  | completed {s t} (order : RecoveryOrder Row)
      (h : (recoverTransactions order).Ends s (some none) t) : Recovers s t
  | interrupted {s s' t} (order : RecoveryOrder Row) {r : Option (Option String)}
      (h : (recoverTransactions order).Ends s r s') (hagain : Recovers s' t) : Recovers s t

structure Fresh (id : String) (s : Store Row) : Prop where
  journal : ∀ i table, s.journal.load (i, table) = none
  keys : ∀ table key, (id, table, key) ∉ s.keys

end RenoP.Database.ClickHouse
