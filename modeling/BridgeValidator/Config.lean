import BridgeValidator.Primitives

/-!
# Configuration

The part of `Config` the services read. What `Config::from_env` refuses to
accept (an empty RPC array, a zero or oversized knob) is a field here, so the
services need no case for it.
-/

namespace BridgeValidator

/-- Which block a chain's indexers treat as the upper bound to index up to. -/
inductive BlockProcessingMode where
  | fcr
  | blockFinality
deriving DecidableEq, Repr

namespace BlockProcessingMode

instance : Inhabited BlockProcessingMode := ⟨.blockFinality⟩

def isFcr : BlockProcessingMode → Bool
  | .fcr => true
  | .blockFinality => false

end BlockProcessingMode

/-- The `chain: &str` arguments; anything but `"eth"` and `"gc"` is `other`. -/
inductive Chain where
  | eth
  | gc
  | other (name : String)
deriving DecidableEq, Repr

/-- The `event_logs.bridge_mode` text. -/
inductive BridgeMode where
  | AMB_ETH
  | AMB_GC
  | XDAI_ETH
  | XDAI_GC
  | other (text : String)
deriving DecidableEq, Repr

structure Config where
  eth_rpc : List String
  gc_rpc : List String
  eth_rpc_ne : eth_rpc ≠ []
  gc_rpc_ne : gc_rpc ≠ []
  eth_bc_rpc : List String
  gc_bc_rpc : List String
  xdai_validator_private_key : Option String
  amb_validator_private_key : Option String
  eth_amb_bridge_address : Address
  gc_amb_bridge_address : Address
  eth_xdai_bridge_address : Address
  gc_xdai_bridge_address : Address
  xdai_execute_message_on_foreign : String
  amb_execute_message_on_foreign : String
  xdai_bridge_helper_address : Address
  amb_bridge_helper_address : Address
  max_retry_count : Nat
  max_retry_count_pos : 1 ≤ max_retry_count
  max_retry_count_le : max_retry_count ≤ u64Max
  max_block_range : Nat
  max_block_range_pos : 1 ≤ max_block_range
  max_block_range_le : max_block_range ≤ u64Max
  eth_block_processing_mode : BlockProcessingMode
  gc_block_processing_mode : BlockProcessingMode

namespace Config

/-- The primary ETH RPC, `eth_rpc[0]`. -/
def getEthRpc (cfg : Config) : String := cfg.eth_rpc.head cfg.eth_rpc_ne

/-- The primary GC RPC, `gc_rpc[0]`. -/
def getGcRpc (cfg : Config) : String := cfg.gc_rpc.head cfg.gc_rpc_ne

def getEthBcRpc (cfg : Config) : Option String := cfg.eth_bc_rpc.head?

def getGcBcRpc (cfg : Config) : Option String := cfg.gc_bc_rpc.head?

def modeForChain (cfg : Config) : Chain → BlockProcessingMode
  | .eth => cfg.eth_block_processing_mode
  | .gc => cfg.gc_block_processing_mode
  | .other _ => default

def setModeForChain (cfg : Config) (chain : Chain) (mode : BlockProcessingMode) : Config :=
  match chain with
  | .eth => { cfg with eth_block_processing_mode := mode }
  | .gc => { cfg with gc_block_processing_mode := mode }
  | .other _ => cfg

/-- Chains currently in fcr mode, with their EL RPC arrays. -/
def fcrChains (cfg : Config) : List (Chain × List String) :=
  (if cfg.eth_block_processing_mode.isFcr then [(.eth, cfg.eth_rpc)] else []) ++
  (if cfg.gc_block_processing_mode.isFcr then [(.gc, cfg.gc_rpc)] else [])

/-- Beacon RPC, if configured, and the EL fallbacks in the order tried. -/
def finalityRpcsForChain (cfg : Config) : Chain → Option String × List String
  | .eth => (cfg.getEthBcRpc, cfg.eth_rpc)
  | _ => (cfg.getGcBcRpc, cfg.gc_rpc)

def bridgeModesForChain : Chain → List BridgeMode
  | .eth => [.AMB_ETH, .XDAI_ETH]
  | _ => [.AMB_GC, .XDAI_GC]

/-- The retry ceiling as the claim query compares it: `retry_count` is an
`INT` column, so a larger `u64` saturates. -/
def retryCeiling (cfg : Config) : Int :=
  if (cfg.max_retry_count : Int) ≤ i32Max then cfg.max_retry_count else i32Max

theorem retryCeiling_pos (cfg : Config) : 1 ≤ cfg.retryCeiling := by
  have := cfg.max_retry_count_pos
  unfold retryCeiling i32Max
  split <;> omega

theorem retryCeiling_le (cfg : Config) : cfg.retryCeiling ≤ i32Max := by
  unfold retryCeiling
  split <;> omega

end Config

end BridgeValidator
