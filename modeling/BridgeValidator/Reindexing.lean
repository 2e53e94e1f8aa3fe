import BridgeValidator.IndexerLosses
import BridgeValidator.XdaiMessage

/-!
# Indexing a range again

Ranges overlap: the cursor starts over after a restart, and a chunk that failed is
asked for again. A log is stored under `(transaction_hash, log_index)`, the key of
migration 003, and an INSERT that meets its key does nothing. So what a call adds
is what its logs have that the table lacks, one row each, and the rows that are
there keep the state the processor, the sender and the checker have given them.
-/

namespace BridgeValidator

open Interaction

/-! ## Keys -/

/-- `(transaction_hash, log_index)` of a row; with a NULL in it there is none. -/
def EventLog.key (r : EventLog) : Option (String × Int) :=
  r.transaction_hash.bind fun transaction_hash =>
    r.log_index.map fun log_index => (transaction_hash, log_index)

/-- The key a log is stored under: none without a `log_index` or a `topics[0]`. -/
def RpcLog.key (log : RpcLog) : Option (String × Int) :=
  if log.storable then
    log.transaction_hash.bind fun transaction_hash =>
      log.log_index.map fun log_index => (transaction_hash.debug, asI64 log_index)
  else none

/-- A mined log: it has a transaction hash, and an index, if it has one, is a `u64`. -/
structure RpcLog.Mined (log : RpcLog) : Prop where
  transaction_hash : log.transaction_hash.isSome = true
  log_index : ∀ n, log.log_index = some n → n ≤ u64Max

theorem FixedBytes.debug_injective {n : Nat} : Function.Injective (FixedBytes.debug (n := n)) := by
  intro a b h
  have ha : hexDecode (a.debug.toList.drop 2) = .ok a.bytes := MessageProcessor.hexDecode_message _
  have hb : hexDecode (b.debug.toList.drop 2) = .ok b.bytes := MessageProcessor.hexDecode_message _
  rw [h, hb] at ha
  exact FixedBytes.ext_bytes (Except.ok.inj ha).symm

/-- As an `i64` a large index is negative, and still its own. -/
theorem asI64_inj {m n : Nat} (hm : m ≤ u64Max) (hn : n ≤ u64Max) (h : asI64 m = asI64 n) :
    m = n := by
  unfold asI64 i64Max at h
  unfold u64Max at hm hn
  by_cases hm' : (m : Int) ≤ 9223372036854775807 <;>
    by_cases hn' : (n : Int) ≤ 9223372036854775807 <;>
    simp only [hm', hn', if_true, if_false] at h <;> omega

/-- Logs stored under one key are at one place of one transaction. -/
theorem RpcLog.Mined.place_eq {log log' : RpcLog} (h : log.Mined) (h' : log'.Mined)
    {key : String × Int} (hkey : log.key = some key) (hkey' : log'.key = some key) :
    log.transaction_hash = log'.transaction_hash ∧ log.log_index = log'.log_index := by
  unfold RpcLog.key at hkey hkey'
  split at hkey
  · split at hkey'
    · simp only [Option.bind_eq_some_iff, Option.map_eq_some_iff] at hkey hkey'
      obtain ⟨hash, hhash, n, hn, rfl⟩ := hkey
      obtain ⟨hash', hhash', n', hn', heq⟩ := hkey'
      obtain ⟨htext, hindex⟩ := Prod.mk.inj heq
      rw [hhash, hhash', hn, hn', FixedBytes.debug_injective htext,
        asI64_inj (h'.log_index n' hn') (h.log_index n hn) hindex]
      exact ⟨rfl, rfl⟩
    · cases hkey'
  · cases hkey

theorem RpcLog.Mined.exists_key {log : RpcLog} (h : log.Mined) (hstorable : log.storable = true) :
    ∃ key, log.key = some key := by
  obtain ⟨hash, hhash⟩ := Option.isSome_iff_exists.mp h.transaction_hash
  have hindex : log.log_index.isSome = true := (Bool.and_eq_true_iff.mp hstorable).1
  obtain ⟨n, hn⟩ := Option.isSome_iff_exists.mp hindex
  refine ⟨(hash.debug, asI64 n), ?_⟩
  rw [RpcLog.key, if_pos hstorable, hhash, hn]
  rfl

namespace Db

/-- What the migrations demand of `event_logs`: the primary key and
`UNIQUE (transaction_hash, log_index)`. -/
structure Schema (db : Db) : Prop where
  keyed : db.Keyed
  unique : (db.event_logs.filterMap EventLog.key).Nodup

theorem hasKey_iff {db : Db} {transaction_hash : String} {log_index : Int} :
    db.hasKey (some transaction_hash) log_index = true ↔
      some (transaction_hash, log_index) ∈ db.event_logs.map EventLog.key := by
  simp only [hasKey, List.any_eq_true, Bool.and_eq_true, beq_iff_eq, List.mem_map, EventLog.key,
    Option.bind_eq_some_iff, Option.map_eq_some_iff, Prod.mk.injEq]
  constructor
  · rintro ⟨r, hr, ⟨-, hhash⟩, hindex⟩
    exact ⟨r, hr, _, hhash, _, hindex, rfl, rfl⟩
  · rintro ⟨r, hr, _, hhash, _, hindex, rfl, rfl⟩
    exact ⟨r, hr, ⟨by rw [hhash]; rfl, hhash⟩, hindex⟩

end Db

/-- As the INSERT leaves it: unclaimed, never released, at its first stage. -/
structure EventLog.Fresh (r : EventLog) : Prop where
  is_processed : r.is_processed = some false
  retry_count : r.retry_count = some 0
  stage : r.stage = some .home

/-- What a list of logs has done to the table: every row is as it was, and behind
them stands one fresh row for each key that was missing. -/
structure Db.Reindexed (db db' : Db) (logs : List RpcLog) : Prop where
  schema : db'.Schema
  rows : ∃ new, db'.event_logs = db.event_logs ++ new ∧ (∀ r ∈ new, r.Fresh) ∧
    AddsKeys EventLog.key (logs.filterMap RpcLog.key) db.event_logs new
  others : db'.fcr_false_positives = db.fcr_false_positives ∧ db'.tx = db.tx

namespace Db.Reindexed

variable {db db₁ db₂ : Db} {logs logs₁ logs₂ : List RpcLog}

theorem refl (h : db.Schema) : db.Reindexed db [] where
  schema := h
  rows := ⟨[], (List.append_nil _).symm, fun _ hr => (by cases hr), .nil⟩
  others := ⟨rfl, rfl⟩

theorem append (h₁ : db.Reindexed db₁ logs₁) (h₂ : db₁.Reindexed db₂ logs₂) :
    db.Reindexed db₂ (logs₁ ++ logs₂) where
  schema := h₂.schema
  rows := by
    obtain ⟨new₁, hrows₁, hfresh₁, hadds₁⟩ := h₁.rows
    obtain ⟨new₂, hrows₂, hfresh₂, hadds₂⟩ := h₂.rows
    rw [hrows₁] at hrows₂ hadds₂
    refine ⟨new₁ ++ new₂, by rw [hrows₂, List.append_assoc], ?_, ?_⟩
    · intro r hr
      exact (List.mem_append.mp hr).elim (hfresh₁ r) (hfresh₂ r)
    · rw [List.filterMap_append]
      exact hadds₁.append hadds₂
  others := ⟨h₂.others.1.trans h₁.others.1, h₂.others.2.trans h₁.others.2⟩

/-- The keys afterwards: the old ones and those of the logs. -/
theorem mem_keys (h : db.Reindexed db₁ logs) (key : String × Int) :
    some key ∈ db₁.event_logs.map EventLog.key ↔
      some key ∈ db.event_logs.map EventLog.key ∨ ∃ log ∈ logs, log.key = some key := by
  obtain ⟨new, hrows, -, hadds⟩ := h.rows
  rw [hrows, hadds.mem_append, List.mem_filterMap]

end Db.Reindexed

/-- An executed INSERT of an unclaimed row with a key. -/
theorem Db.Schema.insert {db db' : Db} {n : NewEventLog} {hash : String} {k : Nat}
    (hs : db.Schema) (hhash : n.transaction_hash = some hash) (hnew : n.is_processed = false)
    (h : db.insertEventLog n = (.ok k, db')) {log : RpcLog}
    (hkey : log.key = some (hash, n.log_index)) : db.Reindexed db' [log] := by
  have hkeyed : db'.Keyed := (hs.keyed.insert h).1
  have hkeys : [log].filterMap RpcLog.key = [(hash, n.log_index)] := by
    rw [List.filterMap_cons_some hkey, List.filterMap_nil]
  unfold Db.insertEventLog at h
  split at h
  · split at h
    · rename_i hhas
      rw [hhash, Db.hasKey_iff] at hhas
      obtain ⟨-, rfl⟩ := Prod.mk.inj h
      refine ⟨⟨hkeyed, hs.unique⟩, ⟨[], (List.append_nil _).symm, ?_, ?_⟩, rfl, rfl⟩
      · intro r hr
        cases hr
      · rw [hkeys]
        exact .present hhas
    · rename_i hhas
      rw [hhash, Db.hasKey_iff] at hhas
      obtain ⟨-, rfl⟩ := Prod.mk.inj h
      have hrow : (n.toRow db.next_id).key = some (hash, n.log_index) := by
        simp only [EventLog.key, NewEventLog.toRow, hhash, Option.bind_some, Option.map_some]
      have hadds : AddsKeys EventLog.key [(hash, n.log_index)] db.event_logs
          [n.toRow db.next_id] := .missing hrow hhas
      refine ⟨⟨hkeyed, hadds.unique hs.unique⟩, ⟨[n.toRow db.next_id], rfl, ?_, ?_⟩, rfl, rfl⟩
      · intro r hr
        obtain rfl := List.mem_singleton.mp hr
        exact ⟨congrArg some hnew, rfl, rfl⟩
      · rw [hkeys]
        exact hadds
  · cases (Prod.mk.inj h).1

/-! ## One call -/

/-- The calls of an indexer alone with the table: the provider answers with `logs`,
and every statement executes. -/
inductive Db.Executes (logs : List RpcLog) (db : Db) : (o : Op) → o.Ans → Db → Prop
  | fetch {chain filter} : Executes logs db (.rpc (.getLogs chain filter)) (.ok logs) db
  | statement {st a db'} (h : db.Answers st (.ok a) db') : Executes logs db (.db st) (.ok a) db'

namespace EventIndexer

/-- The table as the ghost state of a call that is answered with `logs`. -/
def indexing (logs : List RpcLog) : Protocol Calls Db where
  allows _
    | .rpc (.getLogs ..) => True
    | .db (.insertEventLog _) => True
    | _ => False
  admits db
    | .rpc (.getLogs ..), x => x = .ok logs
    | .db (.insertEventLog row), x => ∃ k, x = .ok k ∧ (db.insertEventLog row).1 = .ok k
    | _, _ => True
  next db
    | .db (.insertEventLog row), _ => (db.insertEventLog row).2
    | _, _ => db

theorem indexing_of_executes {logs : List RpcLog} {db db' : Db} {o : Op} {x : o.Ans}
    (hallow : (indexing logs).allows db o) (h : db.Executes logs o x db') :
    (indexing logs).admits db o x ∧ (indexing logs).next db o x = db' := by
  cases h with
  | fetch => exact ⟨rfl, rfl⟩
  | @statement st a db' h =>
      cases st with
      | insertEventLog row =>
          rcases h with ⟨-, skip, hexec⟩ | ⟨-, -, e, he⟩
          · have hexec : db.insertEventLog row = (.ok a, db') := hexec
            refine ⟨⟨a, rfl, by rw [hexec]⟩, ?_⟩
            show (db.insertEventLog row).2 = db'
            rw [hexec]
          · cases he
      | _ => exact hallow.elim

variable {lib : Externals} {ix : EventIndexer} {db : Db} {logs : List RpcLog}

theorem indexing_storeLog (hjson : lib.Serializes) (hs : db.Schema) {log : RpcLog}
    (hmined : log.Mined) :
    Act.Follows (indexing logs) db (ix.storeLog lib log) fun db' r =>
      r = .ok () ∧ db.Reindexed db' [log] := by
  have hskipped : log.storable = false → db.Reindexed db [log] := by
    intro hskip
    have hkey : log.key = none := by simp only [RpcLog.key, hskip, Bool.false_eq_true, if_false]
    have hrefl := Db.Reindexed.refl hs
    refine ⟨hs, ?_, rfl, rfl⟩
    rw [List.filterMap_cons_none hkey]
    exact hrefl.rows
  unfold storeLog
  cases hindex : log.log_index with
  | none =>
      refine ⟨rfl, hskipped ?_⟩
      simp only [RpcLog.storable, hindex, Option.isSome_none, Bool.false_and]
  | some log_index =>
      cases htopic : log.topics.head? with
      | none =>
          refine ⟨rfl, hskipped ?_⟩
          simp only [RpcLog.storable, htopic, Option.isSome_none, Bool.and_false]
      | some topic_key =>
          obtain ⟨hash, hhash⟩ := Option.isSome_iff_exists.mp hmined.transaction_hash
          have hkey : log.key = some (hash.debug, asI64 log_index) := by
            simp only [RpcLog.key, RpcLog.storable, hindex, htopic, hhash, Option.isSome_some,
              Bool.and_true, if_true, Option.bind_some, Option.map_some]
          refine Act.follows_bind.mpr (follows_orErr.mpr ⟨fun log_json _ => ?_, fun e he => ?_⟩)
          · refine Act.follows_bind.mpr (follows_await.mpr ⟨trivial, ?_⟩)
            rintro _ ⟨k, rfl, hinsert⟩
            refine ⟨rfl, ?_⟩
            have hhash' : (ix.eventLogOf log log_index topic_key log_json).transaction_hash =
                some hash.debug := by
              simp only [eventLogOf, hhash, Option.map_some]
            exact hs.insert hhash' rfl (Prod.ext hinsert rfl) hkey
          · obtain ⟨v, hv⟩ := hjson log
            rw [hv] at he
            cases he

theorem indexing_storeLogs (hjson : lib.Serializes) (hs : db.Schema) {rest : List RpcLog}
    (hmined : ∀ log ∈ rest, log.Mined) :
    Act.Follows (indexing logs) db (ix.storeLogs lib rest) fun db' r =>
      r = .ok () ∧ db.Reindexed db' rest := by
  induction rest generalizing db with
  | nil => exact ⟨rfl, .refl hs⟩
  | cons log rest ih =>
      have hlog : Act.Follows (indexing logs) db (ix.storeLog lib log) fun db' r =>
          r = .ok () ∧ db.Reindexed db' [log] :=
        indexing_storeLog hjson hs (hmined log List.mem_cons_self)
      refine Act.follows_bind.mpr (hlog.mono ?_)
      rintro db₁ _ ⟨rfl, hdone⟩
      have hrest := ih hdone.schema fun log hlog => hmined log (List.mem_cons_of_mem _ hlog)
      apply hrest.mono
      rintro db₂ r ⟨hr, hdone'⟩
      exact ⟨hr, hdone.append hdone'⟩

theorem indexing_indexBlockRange (hjson : lib.Serializes) (hs : db.Schema)
    (hmined : ∀ log ∈ logs, log.Mined) {c : Chunk} :
    Act.Follows (indexing logs) db (ix.indexBlockRange lib c) fun db' r =>
      r = .ok () ∧ db.Reindexed db' logs := by
  refine Act.follows_bind.mpr (follows_await.mpr ⟨trivial, ?_⟩)
  rintro _ rfl
  refine Act.follows_bind.mpr (follows_orErr.mpr ⟨?_, fun e he => by cases he⟩)
  rintro _ ⟨⟩
  exact indexing_storeLogs hjson hs hmined

/-! ### While ids are left -/

theorem exec_storeLog (hjson : lib.Serializes) (hroom : db.next_id ≤ i32Max) (log : RpcLog) :
    ∃ tr db', Prog.Exec (Db.Executes logs) db (ix.storeLog lib log) tr (.ok ()) db' ∧
      db'.next_id ≤ db.next_id + 1 := by
  have hskip : ∃ tr db', Prog.Exec (Db.Executes logs) db (return : Action Unit) tr (.ok ()) db' ∧
      db'.next_id ≤ db.next_id + 1 := ⟨[], db, ⟨rfl, rfl, rfl⟩, by omega⟩
  unfold storeLog
  cases log.log_index with
  | none => exact hskip
  | some log_index =>
      cases log.topics.head? with
      | none => exact hskip
      | some topic_key =>
          obtain ⟨log_json, hvalue⟩ := hjson log
          have hinsert : ∀ row : NewEventLog, ∃ k db', db.insertEventLog row = (.ok k, db') ∧
              db'.next_id = db.next_id + 1 := by
            intro row
            unfold Db.insertEventLog
            rw [if_pos hroom]
            split
            · exact ⟨0, _, rfl, rfl⟩
            · exact ⟨1, _, rfl, rfl⟩
          obtain ⟨k, db', hinsert, hnext⟩ :=
            hinsert (ix.eventLogOf log log_index topic_key log_json)
          simp only [hvalue]
          have hans : db.Executes logs (.db (.insertEventLog
              (ix.eventLogOf log log_index topic_key log_json))) (.ok k) db' :=
            .statement (Or.inl ⟨rfl, fun _ => false, hinsert⟩)
          exact ⟨[⟨db, ⟨.db (.insertEventLog
            (ix.eventLogOf log log_index topic_key log_json)), .ok k⟩, db'⟩], db',
            ⟨.ok k, db', [], hans, rfl, rfl, rfl, rfl⟩, by omega⟩

theorem exec_storeLogs (hjson : lib.Serializes) {rest : List RpcLog}
    (hroom : db.next_id + rest.length ≤ i32Max + 1) :
    ∃ tr db', Prog.Exec (Db.Executes logs) db (ix.storeLogs lib rest) tr (.ok ()) db' ∧
      db'.next_id ≤ db.next_id + rest.length := by
  induction rest generalizing db with
  | nil => exact ⟨[], db, ⟨rfl, rfl, rfl⟩, by simp⟩
  | cons log rest ih =>
      rw [List.length_cons] at hroom
      have hone : ∃ tr db', Prog.Exec (Db.Executes logs) db (ix.storeLog lib log) tr (.ok ()) db' ∧
          db'.next_id ≤ db.next_id + 1 := exec_storeLog hjson (by omega) log
      obtain ⟨tr₁, db₁, hexec₁, hnext₁⟩ := hone
      obtain ⟨tr₂, db₂, hexec₂, hnext₂⟩ := @ih db₁ (by omega)
      refine ⟨tr₁ ++ tr₂, db₂, ?_, ?_⟩
      · exact Prog.exec_bind.mpr ⟨tr₁, .ok (), db₁, tr₂, rfl, hexec₁, hexec₂⟩
      · rw [List.length_cons]
        omega

end EventIndexer

/-- One `index_block_range`, and the logs the provider answered with. -/
structure RangeCall where
  ix : EventIndexer
  range : Chunk
  logs : List RpcLog

/-- The call ran, alone with the table and all its INSERTs executed. -/
def RangeCall.Runs (lib : Externals) (call : RangeCall) (db db' : Db) : Prop :=
  ∃ tr result, Prog.Exec (Db.Executes call.logs) db (call.ix.indexBlockRange lib call.range) tr
    result db'

variable {lib : Externals} {db db' db₁ db₂ : Db} {call : RangeCall} {calls : List RangeCall}

theorem RangeCall.Runs.reindexed (h : call.Runs lib db db') (hjson : lib.Serializes)
    (hs : db.Schema) (hmined : ∀ log ∈ call.logs, log.Mined) : db.Reindexed db' call.logs := by
  obtain ⟨tr, result, hexec⟩ := h
  have hfollows : Act.Follows (EventIndexer.indexing call.logs) db
      (call.ix.indexBlockRange lib call.range) fun db' r =>
        r = .ok () ∧ db.Reindexed db' call.logs :=
    EventIndexer.indexing_indexBlockRange hjson hs hmined
  exact (hexec.of_follows (fun _ _ _ _ => EventIndexer.indexing_of_executes) hfollows).2

/-- With ids left for its logs, every call can run. -/
theorem RangeCall.exists_runs (call : RangeCall) (hjson : lib.Serializes)
    (hroom : db.next_id + call.logs.length ≤ i32Max + 1) :
    ∃ db', call.Runs lib db db' ∧ db'.next_id ≤ db.next_id + call.logs.length := by
  have hstored : ∃ tr db', Prog.Exec (Db.Executes call.logs) db
      (call.ix.storeLogs lib call.logs) tr (.ok ()) db' ∧
      db'.next_id ≤ db.next_id + call.logs.length := EventIndexer.exec_storeLogs hjson hroom
  obtain ⟨tr, db', hexec, hnext⟩ := hstored
  exact ⟨db', ⟨_, .ok (), .ok call.logs, db, tr, .fetch, rfl, hexec⟩, hnext⟩

/-! ## Many calls -/

/-- One call after another. -/
def RangeCall.RunAll (lib : Externals) : List RangeCall → Db → Db → Prop
  | [], db, db' => db = db'
  | call :: rest, db, db' => ∃ mid, call.Runs lib db mid ∧ RunAll lib rest mid db'

theorem RangeCall.reindexed_of_runAll (hjson : lib.Serializes) (hs : db.Schema)
    (hmined : ∀ call ∈ calls, ∀ log ∈ call.logs, log.Mined)
    (hrun : RangeCall.RunAll lib calls db db') :
    db.Reindexed db' (calls.flatMap RangeCall.logs) := by
  induction calls generalizing db with
  | nil =>
      obtain rfl := hrun
      exact .refl hs
  | cons call rest ih =>
      obtain ⟨mid, hcall, hrest⟩ := hrun
      have hhead := hcall.reindexed hjson hs (hmined call List.mem_cons_self)
      rw [List.flatMap_cons]
      exact hhead.append (ih hhead.schema
        (fun call hcall => hmined call (List.mem_cons_of_mem _ hcall)) hrest)

/-- **Indexing again changes nothing.** Whatever state the rows are in and whatever
ranges are indexed, in whatever order: every row stays as it is, one fresh row is
added for each key that was missing, the keys are those of one call that is answered
with all the logs at once, and logs at two places of a transaction have two rows. For
a single range, `calls` is one call. -/
theorem reindexing_is_idempotent (hjson : lib.Serializes) (hs : db.Schema)
    (hmined : ∀ call ∈ calls, ∀ log ∈ call.logs, log.Mined)
    (hrun : RangeCall.RunAll lib calls db db') :
    db.Reindexed db' (calls.flatMap RangeCall.logs) ∧
    (∀ (union : RangeCall) (db'' : Db),
      (∀ log, log ∈ union.logs ↔ ∃ call ∈ calls, log ∈ call.logs) →
      union.Runs lib db db'' → ∀ key,
        some key ∈ db'.event_logs.map EventLog.key ↔
          some key ∈ db''.event_logs.map EventLog.key) ∧
    ∀ log ∈ calls.flatMap RangeCall.logs, ∀ log' ∈ calls.flatMap RangeCall.logs,
      log.storable = true → log'.storable = true →
      log.transaction_hash = log'.transaction_hash → log.log_index ≠ log'.log_index →
      ∃ r ∈ db'.event_logs, ∃ r' ∈ db'.event_logs,
        r.key = log.key ∧ r'.key = log'.key ∧ r.id ≠ r'.id := by
  have hall := RangeCall.reindexed_of_runAll hjson hs hmined hrun
  refine ⟨hall, ?_, ?_⟩
  · intro union db'' hunion hone key
    have hsame : ∀ log, log ∈ calls.flatMap RangeCall.logs ↔ log ∈ union.logs := by
      intro log
      rw [List.mem_flatMap, hunion]
    have hmined' : ∀ log ∈ union.logs, log.Mined := by
      intro log hlog
      obtain ⟨call, hcall, hlog⟩ := (hunion log).mp hlog
      exact hmined call hcall log hlog
    rw [hall.mem_keys, (hone.reindexed hjson hs hmined').mem_keys]
    simp only [hsame]
  · intro log hlog log' hlog' hstorable hstorable' htx hindex
    have hminedAll : ∀ log ∈ calls.flatMap RangeCall.logs, log.Mined := by
      intro log hlog
      obtain ⟨call, hcall, hlog⟩ := List.mem_flatMap.mp hlog
      exact hmined call hcall log hlog
    -- a stored log has a row of its key
    have hrow : ∀ log ∈ calls.flatMap RangeCall.logs, log.storable = true →
        ∃ key, log.key = some key ∧ ∃ r ∈ db'.event_logs, r.key = some key := by
      intro log hlog hstorable
      obtain ⟨key, hkey⟩ := (hminedAll log hlog).exists_key hstorable
      obtain ⟨r, hr, hrkey⟩ := List.mem_map.mp ((hall.mem_keys key).mpr (Or.inr ⟨log, hlog, hkey⟩))
      exact ⟨key, hkey, r, hr, hrkey⟩
    obtain ⟨key, hkey, r, hr, hrkey⟩ := hrow log hlog hstorable
    obtain ⟨key', hkey', r', hr', hrkey'⟩ := hrow log' hlog' hstorable'
    refine ⟨r, hr, r', hr', hrkey.trans hkey.symm, hrkey'.trans hkey'.symm, ?_⟩
    intro hid
    obtain rfl : r = r' := List.inj_on_of_nodup_map hall.schema.keyed.nodup hr hr' hid
    obtain rfl : key = key' := Option.some.inj (hrkey.symm.trans hrkey')
    exact hindex ((hminedAll log hlog).place_eq (hminedAll log' hlog') hkey hkey').2

/-! ### Two ranges over one row -/

namespace Deployment

/-- The log at an index of the block, of the one transaction in it. -/
def logAt (log_index : Option Nat) : RpcLog :=
  { log (.repeatByte 20 0x11) 100 (.repeatByte 32 0xaa) with log_index }

/-- The first log's row was claimed, has failed twice and waits for the foreign chain. -/
def processed : Db :=
  { Db.empty with
    event_logs := [{
      id := 1, topic_key := "", bridge_mode := .AMB_ETH, log_data := .null,
      block_number := some 100, transaction_hash := some (FixedBytes.repeatByte 32 0xcc).debug,
      is_processed := some true, retry_count := some 2, stage := some .foreign,
      log_index := some 0, block_hash := none, fcr_status := some .confirmed }]
    next_id := 2 }

theorem processed_schema : processed.Schema where
  keyed := ⟨List.nodup_singleton _, by simp [processed]⟩
  unique := List.nodup_singleton _

def blocks90 : RangeCall :=
  ⟨IndexerId.ETHAmb.indexer config, ⟨90, 100⟩, [logAt (some 0), logAt (some 1), logAt none]⟩

def blocks95 : RangeCall :=
  ⟨IndexerId.ETHAmb.indexer config, ⟨95, 105⟩, [logAt (some 1), logAt (some 2)]⟩

theorem mined_of_overlapping :
    ∀ call ∈ [blocks90, blocks95], ∀ log ∈ call.logs, log.Mined := by
  have hmined : ∀ i : Option Nat, (∀ n, i = some n → n ≤ u64Max) → (logAt i).Mined :=
    fun i hi => ⟨rfl, hi⟩
  simp only [blocks90, blocks95, List.forall_mem_cons]
  refine ⟨⟨?_, ?_, ?_, ?_⟩, ⟨?_, ?_, ?_⟩, ?_⟩
  · exact hmined _ (by rintro _ ⟨⟩; decide)
  · exact hmined _ (by rintro _ ⟨⟩; decide)
  · exact hmined _ (by rintro _ ⟨⟩)
  · intro _ hlog
    cases hlog
  · exact hmined _ (by rintro _ ⟨⟩; decide)
  · exact hmined _ (by rintro _ ⟨⟩; decide)
  · intro _ hlog
    cases hlog
  · intro _ hcall
    cases hcall

end Deployment

open Deployment in
/-- The row keeps its state, whatever else is found. -/
theorem reindexing_is_idempotent_overlapping :
    ∃ db', RangeCall.RunAll externals [blocks90, blocks95] processed db' ∧
      processed.Reindexed db' ([blocks90, blocks95].flatMap RangeCall.logs) := by
  have hfirst : ∃ mid, blocks90.Runs externals processed mid ∧ mid.next_id ≤ 5 :=
    blocks90.exists_runs serializes (by decide)
  obtain ⟨mid, hrun₁, hnext⟩ := hfirst
  have hroom : mid.next_id + blocks95.logs.length ≤ i32Max + 1 := by
    simp only [blocks95, i32Max, List.length_cons, List.length_nil]
    omega
  obtain ⟨db', hrun₂, -⟩ := blocks95.exists_runs serializes hroom
  have hrun : RangeCall.RunAll externals [blocks90, blocks95] processed db' :=
    ⟨mid, hrun₁, db', hrun₂, rfl⟩
  exact ⟨db', hrun, (reindexing_is_idempotent serializes processed_schema mined_of_overlapping
    hrun).1⟩

end BridgeValidator
