import BridgeValidator.Contracts
import BridgeValidator.Framework.Table
import Mathlib.Data.List.Sort
import Mathlib.Data.List.Dedup
import Mathlib.Tactic.Simps.Basic

/-!
# The shared state: `event_logs` and its statements

The two tables after all four migrations and one constructor of `Stmt` for
every SQL statement the services send. `Db.exec` is what a statement does
when it succeeds or is refused by the schema; `Db.Answers` adds that any
statement may fail without effect.

`read_from_db`'s transaction is one statement here (`claim`): it takes a row
lock and commits before anything else can see the row. The checker's
transaction is not: its statements are separate, its effects stay in `Tx`
until the commit, and the rows it has locked block the sender meanwhile.
-/

namespace BridgeValidator

open Interaction

/-! ## Rows -/

/-- The `stage` text. -/
inductive Stage where
  | home
  | foreign
  | other (text : String)
deriving DecidableEq, Repr

/-- The `fcr_status` text; `NULL` is `none` in the row. -/
inductive FcrStatus where
  | pending
  | confirmed
  | reverted
deriving DecidableEq, Repr

/-- A row of `event_logs`. `is_processed` is the text `'true'` / `'false'`. -/
structure EventLog where
  id : Int
  topic_key : String
  bridge_mode : BridgeMode
  log_data : Json
  block_number : Option Int
  transaction_hash : Option String
  is_processed : Option Bool
  retry_count : Option Int
  stage : Option Stage
  log_index : Option Int
  block_hash : Option String
  fcr_status : Option FcrStatus

/-- What the claim query selects. -/
structure EventLogRow where
  id : Int
  topic_key : String
  bridge_mode : BridgeMode
  log_data : Json
  block_number : Option Int
  transaction_hash : Option String
  is_processed : Option Bool
  retry_count : Option Int
  stage : Option Stage

def EventLog.toRow (r : EventLog) : EventLogRow :=
  { id := r.id, topic_key := r.topic_key, bridge_mode := r.bridge_mode,
    log_data := r.log_data, block_number := r.block_number,
    transaction_hash := r.transaction_hash, is_processed := r.is_processed,
    retry_count := r.retry_count, stage := r.stage }

/-- The bound parameters of the indexer's INSERT. -/
structure NewEventLog where
  topic_key : String
  bridge_mode : BridgeMode
  log_data : Json
  block_number : Option Int
  block_hash : Option String
  transaction_hash : Option String
  log_index : Int
  is_processed : Bool
  fcr_status : Option FcrStatus

/-- The inserted row: bound columns, a serial id and the column defaults. -/
def NewEventLog.toRow (n : NewEventLog) (id : Int) : EventLog :=
  { id, topic_key := n.topic_key, bridge_mode := n.bridge_mode, log_data := n.log_data,
    block_number := n.block_number, transaction_hash := n.transaction_hash,
    is_processed := some n.is_processed, retry_count := some 0, stage := some .home,
    log_index := some n.log_index, block_hash := n.block_hash, fcr_status := n.fcr_status }

/-! The SET clauses of the UPDATEs. -/

@[simps] def EventLog.claimed (r : EventLog) : EventLog := { r with is_processed := some true }

@[simps] def EventLog.withStage (stage : Stage) (r : EventLog) : EventLog :=
  { r with stage := some stage }

/-- `retry_count + 1` of an `INT` column: NULL stays NULL. -/
@[simps] def EventLog.released (r : EventLog) : EventLog :=
  { r with retry_count := r.retry_count.map (· + 1), is_processed := some false }

@[simps] def EventLog.withStatus (status : FcrStatus) (r : EventLog) : EventLog :=
  { r with fcr_status := some status }

/-- A row of `fcr_false_positives`. -/
structure FalsePositive where
  chain : Chain
  block_number : Int
  stored_block_hash : String
  canonical_block_hash : Option String
  transaction_hash : Option String
  log_index : Option Int
  event_log_id : Int
  detected_at_finalized : Int
deriving DecidableEq

/-- An open transaction of the checker: the rows it holds locks on, and what
its commit will write. -/
structure Tx where
  locked : List Int
  inserted : List FalsePositive
  reverted : List Int
deriving DecidableEq

structure Db where
  event_logs : List EventLog
  next_id : Int
  fcr_false_positives : List FalsePositive
  tx : Option Tx

/-- The database right after the migrations. -/
def Db.empty : Db := { event_logs := [], next_id := 1, fcr_false_positives := [], tx := none }

/-! ## Statements -/

inductive Stmt where
  /-- `read_from_db`: SELECT .. FOR UPDATE SKIP LOCKED, UPDATE, COMMIT. -/
  | claim (max_retry_count : Int)
  | insertEventLog (row : NewEventLog)
  | updateStage (stage : Stage) (id : Int)
  | incrementRetryCount (id : Int)
  | deleteEventLog (id : Int)
  | countPending (modes : List BridgeMode)
  | selectPendingBlocks (modes : List BridgeMode) (finalized : Int)
  | countUnverifiable (modes : List BridgeMode) (finalized : Int)
  | markConfirmed (modes : List BridgeMode) (block_number : Int) (block_hash : String)
  | begin
  | selectAffected (modes : List BridgeMode) (block_number : Int) (block_hash : String)
  | insertFalsePositive (row : FalsePositive)
  | markReverted (modes : List BridgeMode) (block_number : Int) (block_hash : String)
  | commit
  | rollback

abbrev Stmt.Ret : Stmt → Type
  | .claim _ => Option EventLogRow
  | .insertEventLog _ => Nat
  | .updateStage .. => Unit
  | .incrementRetryCount _ => Unit
  | .deleteEventLog _ => Unit
  | .countPending _ => Nat
  | .selectPendingBlocks .. => List (Int × String)
  | .countUnverifiable .. => Nat
  | .markConfirmed .. => Nat
  | .begin => Unit
  | .selectAffected .. => List (Int × Option String × Option Int)
  | .insertFalsePositive _ => Unit
  | .markReverted .. => Nat
  | .commit => Unit
  | .rollback => Unit

/-! ## The claim query -/

/-- `is_processed = 'false' AND retry_count < $1`; a NULL is never below. -/
def EventLog.isClaimable (max_retry_count : Int) (r : EventLog) : Bool :=
  r.is_processed == some false &&
    match r.retry_count with
    | some n => decide (n < max_retry_count)
    | none => false

/-- `a <= b`, NULLs last. -/
def nullsLastLE : Option Int → Option Int → Bool
  | some a, some b => decide (a ≤ b)
  | some _, none => true
  | none, some _ => false
  | none, none => true

/-- `ORDER BY block_number ASC, log_index ASC`. -/
def claimLE (a b : EventLog) : Prop :=
  (if a.block_number = b.block_number then nullsLastLE a.log_index b.log_index
    else nullsLastLE a.block_number b.block_number) = true

instance : DecidableRel claimLE := fun a b => by unfold claimLE; infer_instance

namespace Db

variable (db : Db)

/-- Ids locked by the open transaction. -/
def locked : List Int := db.tx.elim [] Tx.locked

/-- The row the claim query takes, `skip` being the rows somebody else has
locked at that moment. -/
def claimCandidate (skip : Int → Bool) (max_retry_count : Int) : Option EventLog :=
  ((db.event_logs.filter fun r =>
      r.isClaimable max_retry_count && !skip r.id && decide (r.id ∉ db.locked)).insertionSort
    claimLE).head?

/-! ## What each statement does -/

/-- `UPDATE event_logs SET f WHERE p`. -/
def update (p : EventLog → Bool) (f : EventLog → EventLog) : Db :=
  { db with event_logs := updateWhere p f db.event_logs }

def claim (skip : Int → Bool) (max_retry_count : Int) : Option EventLogRow × Db :=
  match db.claimCandidate skip max_retry_count with
  | none => (none, db)
  | some r => (some r.toRow,
      db.update (fun r' => r'.id == r.id) EventLog.claimed)

/-- `UNIQUE (transaction_hash, log_index)`: NULLs are distinct. -/
def hasKey (transaction_hash : Option String) (log_index : Int) : Bool :=
  db.event_logs.any fun r =>
    r.transaction_hash.isSome && r.transaction_hash == transaction_hash &&
      r.log_index == some log_index

/-- `INSERT .. ON CONFLICT (transaction_hash, log_index) DO NOTHING`. The
serial id is drawn whether or not the row conflicts. -/
def insertEventLog (n : NewEventLog) : Except String Nat × Db :=
  if db.next_id ≤ i32Max then
    if db.hasKey n.transaction_hash n.log_index then
      (.ok 0, { db with next_id := db.next_id + 1 })
    else
      (.ok 1, { db with next_id := db.next_id + 1,
                        event_logs := db.event_logs ++ [n.toRow db.next_id] })
  else (.error "nextval: reached maximum value of sequence", db)

def updateStage (stage : Stage) (id : Int) : Db :=
  db.update (fun r => r.id == id) (EventLog.withStage stage)

def incrementRetryCount (id : Int) : Except String Unit × Db :=
  if db.event_logs.any fun r => r.id == id && r.retry_count == some i32Max then
    (.error "integer out of range", db)
  else
    (.ok (), db.update (fun r => r.id == id) EventLog.released)

def deleteEventLog (id : Int) : Db :=
  { db with event_logs := db.event_logs.filter fun r => !(r.id == id) }

end Db

/-- `bridge_mode = ANY(modes) AND fcr_status = 'pending'`. -/
def EventLog.isPendingOf (modes : List BridgeMode) (r : EventLog) : Bool :=
  decide (r.bridge_mode ∈ modes) && r.fcr_status == some .pending

/-- The predicate the checker's three per-block statements share. -/
def EventLog.isPendingAt (modes : List BridgeMode) (block_number : Int) (block_hash : String)
    (r : EventLog) : Bool :=
  r.isPendingOf modes && r.block_number == some block_number && r.block_hash == some block_hash

/-- `block_number <= $2`; false on NULL. -/
def EventLog.isUpTo (finalized : Int) (r : EventLog) : Bool :=
  match r.block_number with
  | some n => decide (n ≤ finalized)
  | none => false

namespace Db

variable (db : Db)

/-- `SELECT DISTINCT block_number, block_hash .. ORDER BY block_number ASC`. -/
def selectPendingBlocks (modes : List BridgeMode) (finalized : Int) : List (Int × String) :=
  ((db.event_logs.filter fun r => r.isPendingOf modes && r.isUpTo finalized).filterMap
      fun r => r.block_number.bind fun n => r.block_hash.map fun h => (n, h)).dedup.insertionSort
    fun a b => a.1 ≤ b.1

def countUnverifiable (modes : List BridgeMode) (finalized : Int) : Nat :=
  db.event_logs.countP fun r => r.isPendingOf modes && r.block_hash.isNone && r.isUpTo finalized

def markConfirmed (modes : List BridgeMode) (n : Int) (h : String) : Db :=
  db.update (EventLog.isPendingAt modes n h) (EventLog.withStatus .confirmed)

/-- The rows the checker's `SELECT .. FOR UPDATE` and UPDATE match. -/
def affected (modes : List BridgeMode) (n : Int) (h : String) : List EventLog :=
  db.event_logs.filter (EventLog.isPendingAt modes n h)

def noTransaction : String := "no transaction in progress"

def selectAffected (modes : List BridgeMode) (n : Int) (h : String) :
    Except String (List (Int × Option String × Option Int)) × Db :=
  match db.tx with
  | none => (.error noTransaction, db)
  | some tx =>
      (.ok ((db.affected modes n h).map fun r => (r.id, r.transaction_hash, r.log_index)),
       { db with tx := some { tx with
           locked := tx.locked ++ (db.affected modes n h).map EventLog.id } })

def insertFalsePositive (row : FalsePositive) : Except String Unit × Db :=
  match db.tx with
  | none => (.error noTransaction, db)
  | some tx => (.ok (), { db with tx := some { tx with inserted := tx.inserted ++ [row] } })

/-- The UPDATE sees every row committed before it starts, also those inserted
since the SELECT; its effect is visible from the commit on. -/
def markReverted (modes : List BridgeMode) (n : Int) (h : String) : Except String Nat × Db :=
  match db.tx with
  | none => (.error noTransaction, db)
  | some tx =>
      (.ok (db.affected modes n h).length,
       { db with tx := some { tx with
           locked := tx.locked ++ (db.affected modes n h).map EventLog.id
           reverted := tx.reverted ++ (db.affected modes n h).map EventLog.id } })

def commit : Except String Unit × Db :=
  match db.tx with
  | none => (.error noTransaction, db)
  | some tx =>
      (.ok (), { db.update (fun r => decide (r.id ∈ tx.reverted))
                    (EventLog.withStatus .reverted) with
                 fcr_false_positives := db.fcr_false_positives ++ tx.inserted
                 tx := none })

/-- One statement, as the server executes it. -/
def exec (skip : Int → Bool) : (st : Stmt) → Except String st.Ret × Db
  | .claim max => ((db.claim skip max).map Except.ok id)
  | .insertEventLog row => db.insertEventLog row
  | .updateStage stage id => (.ok (), db.updateStage stage id)
  | .incrementRetryCount id => db.incrementRetryCount id
  | .deleteEventLog id => (.ok (), db.deleteEventLog id)
  | .countPending modes => (.ok (db.event_logs.countP (EventLog.isPendingOf modes)), db)
  | .selectPendingBlocks modes fin => (.ok (db.selectPendingBlocks modes fin), db)
  | .countUnverifiable modes fin => (.ok (db.countUnverifiable modes fin), db)
  | .markConfirmed modes n h =>
      (.ok (db.affected modes n h).length, db.markConfirmed modes n h)
  | .begin => (.ok (), { db with tx := some { locked := [], inserted := [], reverted := [] } })
  | .selectAffected modes n h => db.selectAffected modes n h
  | .insertFalsePositive row => db.insertFalsePositive row
  | .markReverted modes n h => db.markReverted modes n h
  | .commit => db.commit
  | .rollback => (.ok (), { db with tx := none })

/-- Statements that wait for a row lock the open transaction holds. -/
def isBlocked : Stmt → Bool
  | .updateStage _ id => decide (id ∈ db.locked)
  | .incrementRetryCount id => decide (id ∈ db.locked)
  | .deleteEventLog id => decide (id ∈ db.locked)
  | _ => false

end Db

/-- A rollback is what closing the connection does, so it cannot fail. -/
def Stmt.mayFail : Stmt → Bool
  | .rollback => false
  | _ => true

/-- What a statement may answer and leave behind: its execution once nothing
blocks it, with any set of other sessions' row locks, or a failure that has no
effect. -/
def Db.Answers (db : Db) (st : Stmt) (x : Except String st.Ret) (db' : Db) : Prop :=
  (db.isBlocked st = false ∧ ∃ skip, db.exec skip st = (x, db')) ∨
  (st.mayFail = true ∧ db' = db ∧ ∃ e, x = .error e)

end BridgeValidator
