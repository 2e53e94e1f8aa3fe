import BridgeValidator.Service.Safe

/-!
# FCR checker

Re-checks rows indexed from `safe` blocks once their number has finalized.
The finalized number and the canonical hashes come from two separate walks
over the providers.
-/

namespace BridgeValidator

open Interaction

/-- One safe-processed block awaiting revalidation. -/
structure PendingBlock where
  block_number : Int
  stored_block_hash : String
deriving DecidableEq

inductive BlockVerdict where
  | Confirmed
  | Reverted (canonical_block_hash : String)
  | Unavailable
deriving DecidableEq

namespace FcrChecker

/-- `fn bridge_modes`. -/
def bridgeModes (chain : Chain) : List BridgeMode := Config.bridgeModesForChain chain

/-- Compare the canonical hash at this number with the stored one. -/
def verdictFor (el_rpcs : List String) (block : PendingBlock) : Action BlockVerdict := do
  match ← Act.attempt (getCanonicalBlockHash el_rpcs block.block_number) with
  | .ok (some canonical) =>
      if eqIgnoreAsciiCase canonical block.stored_block_hash then return .Confirmed
      else return .Reverted canonical
  | .ok none => return .Unavailable
  | .error _ => return .Unavailable

/-- Distinct pending blocks up to the finalized one, after counting the rows
that cannot be revalidated at all. -/
def pendingBlocks (chain : Chain) (finalized_block : Int) : Action (List PendingBlock) := do
  let rows ← sql (.selectPendingBlocks (bridgeModes chain) finalized_block)
  let _unverifiable ← sql (.countUnverifiable (bridgeModes chain) finalized_block)
  return rows.map fun r => { block_number := r.1, stored_block_hash := r.2 }

def reportBacklog (chain : Chain) : Action Unit := do
  let _backlog ← sql (.countPending (bridgeModes chain))
  return

def markConfirmed (chain : Chain) (block : PendingBlock) : Action Nat :=
  sql (.markConfirmed (bridgeModes chain) block.block_number block.stored_block_hash)

/-- The audit rows, one INSERT each. -/
def insertFalsePositives (chain : Chain) (block : PendingBlock)
    (canonical_block_hash : Option String) (finalized_block : Int) :
    List (Int × Option String × Option Int) → Action Unit
  | [] => return
  | (event_log_id, transaction_hash, log_index) :: rest => do
      sql (.insertFalsePositive
        { chain := chain, block_number := block.block_number,
          stored_block_hash := block.stored_block_hash,
          canonical_block_hash := canonical_block_hash,
          transaction_hash := transaction_hash, log_index := log_index,
          event_log_id := event_log_id, detected_at_finalized := finalized_block })
      insertFalsePositives chain block canonical_block_hash finalized_block rest

/-- Run `body` in a transaction; leaving it early rolls back. -/
def inTransaction (body : Action Unit) : Action Unit := do
  sql .begin
  match ← Act.attempt body with
  | .ok () => return
  | .error e => do
      let _ ← await (.db .rollback)
      Act.throw e

/-- Audit rows and status update in one transaction. -/
def recordFalsePositive (chain : Chain) (block : PendingBlock)
    (canonical_block_hash : Option String) (finalized_block : Int) : Action Unit :=
  inTransaction do
    let affected ← sql (.selectAffected (bridgeModes chain) block.block_number
      block.stored_block_hash)
    insertFalsePositives chain block canonical_block_hash finalized_block affected
    let _ ← sql (.markReverted (bridgeModes chain) block.block_number block.stored_block_hash)
    sql .commit

/-- The verdict on one pending block, carried out. -/
def adjudicate (chain : Chain) (el_rpcs : List String) (finalized_block : Int)
    (block : PendingBlock) : Action Unit := do
  match ← verdictFor el_rpcs block with
  | .Confirmed => do
      let _updated ← markConfirmed chain block
      return
  | .Reverted canonical_block_hash =>
      recordFalsePositive chain block (some canonical_block_hash) finalized_block
  | .Unavailable => return

/-- The loop of `check_chain` over the pending blocks. -/
def adjudicateAll (chain : Chain) (el_rpcs : List String) (finalized_block : Int) :
    List PendingBlock → Action Unit
  | [] => return
  | block :: rest => do
      adjudicate chain el_rpcs finalized_block block
      adjudicateAll chain el_rpcs finalized_block rest

section

variable (cfg : Config)

/-- Revalidate every pending block of one chain that has now finalized. -/
def checkChain (chain : Chain) (el_rpcs : List String) : Action Unit := do
  let finality := cfg.finalityRpcsForChain chain
  let finalized_block ← getFinalizedBlockNumber finality.1 finality.2
  reportBacklog chain
  let pending ← pendingBlocks chain finalized_block
  adjudicateAll chain el_rpcs finalized_block pending

/-- The `for` loop of `start` over the fcr chains; errors are logged. -/
def checkChains : List (Chain × List String) → Action Unit
  | [] => return
  | (chain, el_rpcs) :: rest => do
      let _ ← Act.attempt (checkChain cfg chain el_rpcs)
      checkChains rest

/-- One round of the loop in `start`. -/
def cycle : Action Unit := checkChains cfg cfg.fcrChains

end

end FcrChecker

end BridgeValidator
