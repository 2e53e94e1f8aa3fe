import BridgeValidator.Service.Safe

/-!
# Event indexer

`pollEvents` is a program over its own signature, whose one call is
`index_block_range`: the cursor logic can be studied for every pattern of
chunk outcomes. `cycle`, the body of the loop in `start`, links it with the
real `indexBlockRange`.
-/

namespace BridgeValidator

open Interaction

/-! ## Polling in chunks -/

/-- The inclusive range of one `index_block_range` call. -/
structure Chunk where
  from_block : Nat
  to_block : Nat
deriving DecidableEq, Repr

/-- `poll_events` calls `index_block_range` and nothing else. -/
abbrev ChunkCalls : Sig := ⟨Chunk, fun _ => Except (Exit BridgeValidatorError) Unit⟩

abbrev ChunkAction (α : Type) : Type := Act ChunkCalls BridgeValidatorError α

namespace EventIndexer

/-- `self.index_block_range(from, to).await`. -/
def callChunk (c : Chunk) : ChunkAction Unit :=
  @Prog.call ChunkCalls (Except (Exit BridgeValidatorError) Unit) c Prog.pure

/-- `a + b` of two `u64`s; the overflow a release build would wrap is a panic
here. -/
def u64Add (a b : Nat) : ChunkAction Nat :=
  if a + b ≤ u64Max then return a + b else Act.panic "attempt to add with overflow"

/-- `a - b` of two `u64`s. -/
def u64Sub (a b : Nat) : ChunkAction Nat :=
  if b ≤ a then return a - b else Act.panic "attempt to subtract with overflow"

/-- The `while` loop of `poll_events`. The first argument bounds the number of
rounds; `pollEvents` passes the number of blocks, and every round takes one. -/
def pollChunks (max_block_range start_block upper_bound_block : Nat) :
    Nat → Nat → Nat → ChunkAction Nat
  | 0, chunk_start, indexed_through =>
      if chunk_start ≤ upper_bound_block then Act.panic "more rounds than blocks"
      else return indexed_through
  | rounds + 1, chunk_start, indexed_through =>
      if chunk_start ≤ upper_bound_block then do
        let span ← u64Sub max_block_range 1
        let chunk_end := min (saturatingAdd chunk_start span) upper_bound_block
        match ← Act.attempt (callChunk ⟨chunk_start, chunk_end⟩) with
        | .error e =>
            if start_block ≤ indexed_through then return indexed_through else Act.throw e
        | .ok () =>
            if chunk_end = u64Max then return chunk_end
            else do
              let next ← u64Add chunk_end 1
              pollChunks max_block_range start_block upper_bound_block rounds next chunk_end
      else return indexed_through

/-- Index logs in `(last_processed_block, upper_bound_block]`; the new cursor. -/
def pollEvents (max_block_range last_processed_block upper_bound_block : Nat) :
    ChunkAction Nat :=
  if upper_bound_block ≤ last_processed_block then return last_processed_block
  else do
    let start_block ←
      if last_processed_block = 0 then pure upper_bound_block
      else u64Add last_processed_block 1
    let total_blocks ← u64Add (← u64Sub upper_bound_block start_block) 1
    pollChunks max_block_range start_block upper_bound_block total_blocks start_block
      (start_block - 1)

end EventIndexer

/-! ## The indexer -/

/-- `provider` is the chain its provider was set up for. -/
structure EventIndexer where
  config : Config
  provider : Chain
  event_name : String
  contract_address : Address

namespace EventIndexer

def checkBridgeMode (contract_address : Address) (config : Config) : BridgeMode :=
  if contract_address = config.eth_amb_bridge_address then .AMB_ETH
  else if contract_address = config.gc_amb_bridge_address then .AMB_GC
  else if contract_address = config.eth_xdai_bridge_address then .XDAI_ETH
  else if contract_address = config.gc_xdai_bridge_address then .XDAI_GC
  else .other "UNKNOWN"

section

variable (lib : Externals) (ix : EventIndexer)

/-- Which chain this indexer watches, from the contract's bridge mode. -/
def chain : Chain :=
  match checkBridgeMode ix.contract_address ix.config with
  | .AMB_ETH => .eth
  | .XDAI_ETH => .eth
  | _ => .gc

def mode : BlockProcessingMode := ix.config.modeForChain ix.chain

def finalityRpcs : Option String × List String := ix.config.finalityRpcsForChain ix.chain

/-- The row a log is stored as, given its index, topic and JSON form. -/
def eventLogOf (log : RpcLog) (log_index : Nat) (topic_key : B256) (log_json : Json) :
    NewEventLog :=
  { topic_key := topic_key.debug
    bridge_mode := checkBridgeMode ix.contract_address ix.config
    log_data := log_json
    block_number := log.block_number.map asI64
    block_hash := log.block_hash.map FixedBytes.debug
    transaction_hash := log.transaction_hash.map FixedBytes.debug
    log_index := asI64 log_index
    is_processed := false
    fcr_status := match ix.mode with
      | .fcr => some .pending
      | .blockFinality => none }

/-- The body of the loop over the returned logs: logs without a `log_index` or
a `topics[0]` are skipped, and a failed INSERT is only logged. -/
def storeLog (log : RpcLog) : Action Unit :=
  match log.log_index with
  | none => return
  | some log_index =>
      match log.topics.head? with
      | none => return
      | some topic_key => do
          let log_json ← orErr .LogJson (lib.toValue log)
          let _ ← await (.db (.insertEventLog (ix.eventLogOf log log_index topic_key log_json)))
          return

def storeLogs : List RpcLog → Action Unit
  | [] => return
  | log :: rest => do
      ix.storeLog lib log
      storeLogs rest

/-- Fetch and persist every matching log of the inclusive range. -/
def indexBlockRange (c : Chunk) : Action Unit := do
  let logs ← orErr .Rpc (← await (.rpc (.getLogs ix.provider
    { address := ix.contract_address, event := ix.event_name,
      from_block := c.from_block, to_block := c.to_block })))
  ix.storeLogs lib logs

/-- The highest block this cycle may index up to: `safe` in fcr mode, the
latest finalized block otherwise and whenever `safe` cannot be had. -/
def resolveUpperBound : Action Int :=
  if ix.mode.isFcr then do
    match ← Act.attempt (getSafeBlockNumber ix.finalityRpcs.2) with
    | .ok (some safe_block) => return safe_block
    | .ok none => getFinalizedBlockNumber ix.finalityRpcs.1 ix.finalityRpcs.2
    | .error _ => getFinalizedBlockNumber ix.finalityRpcs.1 ix.finalityRpcs.2
  else getFinalizedBlockNumber ix.finalityRpcs.1 ix.finalityRpcs.2

/-- `poll_events` with its calls answered by `indexBlockRange`. -/
def pollAndIndex (last_processed_block upper_bound_block : Nat) : Action Nat :=
  @Prog.interp ChunkCalls Calls _ (fun c => ix.indexBlockRange lib c)
    (pollEvents ix.config.max_block_range last_processed_block upper_bound_block)

/-- One round of the loop in `start`: the next value of the cursor. -/
def cycle (last_processed_block : Nat) : Action Nat := do
  match ← Act.attempt ix.resolveUpperBound with
  | .ok upper_bound_block =>
      let upper_bound_block := asU64 (max upper_bound_block 0)
      match ← Act.attempt (ix.pollAndIndex lib last_processed_block upper_bound_block) with
      | .ok new_block => return new_block
      | .error _ => return last_processed_block
  | .error _ => return last_processed_block

end

end EventIndexer

end BridgeValidator
