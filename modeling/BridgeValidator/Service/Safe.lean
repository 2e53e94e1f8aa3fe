import BridgeValidator.Service.Finality

/-!
# Safe-block and by-number lookups

Execution-layer only. A provider that rejects the `safe` tag, one that has no
safe block yet, and one that did not answer are three different outcomes, for the
bound of a poll as for the preflight that may take a chain out of fcr mode.
-/

namespace BridgeValidator

open Interaction

/-- Outcome of asking a single EL provider for the `safe` block. -/
inductive SafeProbe where
  | Block (n : Int)
  | Empty
  | Unsupported
  | Unreachable
deriving DecidableEq, Repr

/-- `body.get("error")` is present and not null. -/
def hasError (body : Json) : Bool :=
  match body.get? "error" with
  | some e => !e.isNull
  | none => false

/-- The classification of one answer. -/
def readSafeProbe : HttpResponse → SafeProbe
  | .transportError _ => .Unreachable
  | .response status body =>
      if isSuccess status then
        match body with
        | .error _ => .Unreachable
        | .ok v =>
            if hasError v then .Unsupported
            else if (v.index "result").isNull then .Empty
            else match ((v.index "result").index "number").asStr with
              | none => .Unreachable
              | some s => match parseBlockNumber s with
                | none => .Unreachable
                | some n => .Block n
      else .Unreachable

def probeSafeBlock (el_rpc : String) : Action SafeProbe := do
  return readSafeProbe (← await (.rpc (.ethGetBlockByNumber el_rpc .safe)))

/-- The walk of `get_safe_block_number`; the flag is `saw_legitimate_empty`. -/
def safeFromElRpcs : Bool → List String → Action (Option Int)
  | saw_legitimate_empty, [] =>
      if saw_legitimate_empty then return none else Act.throw .AllRpcsFailedForSafeBlock
  | saw_legitimate_empty, el_rpc :: rest => do
      match ← probeSafeBlock el_rpc with
      | .Block n => return some n
      | .Empty => safeFromElRpcs true rest
      | .Unsupported => safeFromElRpcs saw_legitimate_empty rest
      | .Unreachable => safeFromElRpcs saw_legitimate_empty rest

def getSafeBlockNumber (el_rpcs : List String) : Action (Option Int) :=
  safeFromElRpcs false el_rpcs

/-! ## By number -/

/-- One provider's answer to a by-number lookup. -/
inductive HashAnswer where
  /-- no usable answer: the next provider is tried -/
  | failed
  /-- an answer without a hash: tried further, but somebody answered -/
  | noHash
  | hash (h : String)
deriving DecidableEq, Repr

def readHashAnswer : HttpResponse → HashAnswer
  | .transportError _ => .failed
  | .response status body =>
      if isSuccess status then
        match body with
        | .error _ => .failed
        | .ok v =>
            if hasError v then .failed
            else match ((v.index "result").index "hash").asStr with
              | none => .noHash
              | some h => .hash (toAsciiLowercase h)
      else .failed

/-- The walk of `get_canonical_block_hash`; the flag is `any_provider_answered`. -/
def hashFromElRpcs (block_number : Int) : Bool → List String → Action (Option String)
  | any_provider_answered, [] =>
      if any_provider_answered then return none
      else Act.throw (.AllRpcsFailedForBlockLookup block_number)
  | any_provider_answered, el_rpc :: rest => do
      match readHashAnswer
          (← await (.rpc (.ethGetBlockByNumber el_rpc (.number block_number)))) with
      | .failed => hashFromElRpcs block_number any_provider_answered rest
      | .noHash => hashFromElRpcs block_number true rest
      | .hash h => return some h

def getCanonicalBlockHash (el_rpcs : List String) (block_number : Int) :
    Action (Option String) :=
  hashFromElRpcs block_number false el_rpcs

/-! ## Start-up -/

/-- Per-chain result of the startup `safe`-support preflight. -/
structure ChainSafeSupport where
  chain : Chain
  supported : Bool
  reachable : Bool
  unsupported_providers : List String
deriving DecidableEq, Repr

namespace ChainSafeSupport

/-- Downgraded only when providers answered and none would serve `safe`. -/
def keepsFcr (support : ChainSafeSupport) : Bool := support.supported || !support.reachable

/-- One arm of the loop in `preflight_safe_support`. -/
def afterProbe (support : ChainSafeSupport) (el_rpc : String) : SafeProbe → ChainSafeSupport
  | .Block _ => { support with supported := true, reachable := true }
  | .Empty => { support with supported := true, reachable := true }
  | .Unsupported => { support with
      reachable := true
      unsupported_providers := support.unsupported_providers ++ [el_rpc] }
  | .Unreachable => support

end ChainSafeSupport

/-- The loop of `preflight_safe_support`. -/
def probeElRpcs : ChainSafeSupport → List String → Action ChainSafeSupport
  | support, [] => return support
  | support, el_rpc :: rest => do
      let probe ← probeSafeBlock el_rpc
      probeElRpcs (support.afterProbe el_rpc probe) rest

def preflightSafeSupport (chain : Chain) (el_rpcs : List String) : Action ChainSafeSupport :=
  probeElRpcs { chain, supported := false, reachable := false, unsupported_providers := [] }
    el_rpcs

/-- The loop of `run_fcr_preflight`. -/
def preflightChains : Config → List (Chain × List String) → Action Config
  | config, [] => return config
  | config, (chain, el_rpcs) :: rest => do
      let support ← preflightSafeSupport chain el_rpcs
      if support.keepsFcr then preflightChains config rest
      else preflightChains (config.setModeForChain chain .blockFinality) rest

/-- The chains are listed before the first is downgraded. -/
def runFcrPreflight (config : Config) : Action Config := preflightChains config config.fcrChains

end BridgeValidator
