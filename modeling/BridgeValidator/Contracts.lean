import BridgeValidator.Config

/-!
# Contract calls, logs and errors

The calls the sender makes on the two bridges and their helpers, the log and
calldata types that carry an event from the indexer to the sender, and the
pure third-party functions (hashing, key parsing, ABI decoding) as one
record of parameters.
-/

namespace BridgeValidator

/-- `BridgeValidatorError`, the variants the services return. -/
inductive BridgeValidatorError where
  | MissingEnv (name : String)
  | RpcConnect (reason : String)
  | InvalidFieldLength (field : String) (expected actual : Nat)
  | KeyParse (reason : String)
  | Sign (reason : String)
  | HexDecode (reason : String)
  | ParseXdaiMessage (reason : String)
  | LogDecode (reason : String)
  | LogJson (reason : String)
  | ContractCall (reason : String)
  | TxSubmit (reason : String)
  | TxReceipt (reason : String)
  | Http (reason : String)
  | BeaconHttpStatus (status : Nat)
  | ElHttpStatus (status : Nat)
  | EmptyElResponse
  | AllRpcsFailedForFinalizedBlock
  | AllRpcsFailedForSafeBlock
  | AllRpcsFailedForBlockLookup (block_number : Int)
  | Rpc (reason : String)
  | ParseInt (text : String)
  | ChannelSend (reason : String)
  | Db (reason : String)
deriving DecidableEq, Repr

/-! ## Logs -/

/-- A log as `eth_getLogs` returns it. -/
structure RpcLog where
  address : Address
  topics : List B256
  data : Bytes
  block_hash : Option B256
  block_number : Option Nat
  transaction_hash : Option B256
  log_index : Option Nat
deriving DecidableEq

/-- A log as `serde_json::from_value` gives it back to the processor. -/
structure Log where
  address : Address
  topics : List B256
  data : Bytes
deriving DecidableEq

/-! ## Calldata -/

structure AmbEthCalldata where
  message : Bytes
deriving DecidableEq

structure AmbGcCalldata where
  signature : Bytes
  message : Bytes
deriving DecidableEq

structure XdaiEthCalldata where
  recipient : Address
  value : U256
  nonce : B256
deriving DecidableEq

structure XdaiGcCalldata where
  signature : Bytes
  message : Bytes
deriving DecidableEq

inductive OnChainCallData where
  | AmbEth (contract_address : Address) (calldata : AmbEthCalldata)
  | AmbGc (contract_address : Address) (calldata : AmbGcCalldata)
  | XdaiEth (contract_address : Address) (calldata : XdaiEthCalldata)
  | XdaiGc (contract_address : Address) (calldata : XdaiGcCalldata)
deriving DecidableEq

/-! ## View calls and transactions -/

/-- The two bridge contracts share the names of their views. -/
inductive Bridge where
  | amb
  | xdai
deriving DecidableEq, Repr

inductive ViewCall where
  | affirmationsSigned (bridge : Bridge) (contract : Address) (hashSender : B256)
  | numAffirmationsSigned (bridge : Bridge) (contract : Address) (hashMsg : B256)
  | numMessagesSigned (bridge : Bridge) (contract : Address) (hashMsg : B256)
  | messagesSigned (bridge : Bridge) (contract : Address) (hashSender : B256)
  | requiredSignatures (bridge : Bridge) (contract : Address)
  | ambGetSignatures (helper : Address) (message : Bytes)
  | xdaiGetMessageHash (helper recipient : Address) (value : U256) (nonce : B256)
      (token : Address)
  | xdaiGetSignatures (helper : Address) (msgHash : B256)
deriving DecidableEq

abbrev ViewCall.Ret : ViewCall → Type
  | .affirmationsSigned .. => Bool
  | .numAffirmationsSigned .. => U256
  | .numMessagesSigned .. => U256
  | .messagesSigned .. => Bool
  | .requiredSignatures .. => U256
  | .ambGetSignatures .. => Bytes
  | .xdaiGetMessageHash .. => B256
  | .xdaiGetSignatures .. => Bytes

inductive TxCall where
  | ambExecuteAffirmation (contract : Address) (message : Bytes)
  | xdaiExecuteAffirmation (contract recipient : Address) (value : U256) (nonce : B256)
  | submitSignature (bridge : Bridge) (contract : Address) (signature message : Bytes)
  | safeExecuteSignaturesWithAutoGasLimit (contract : Address) (data signatures : Bytes)
  | executeSignatures (contract : Address) (message signatures : Bytes)
deriving DecidableEq

/-- The receipt of a mined transaction: `status` is the execution status flag. -/
structure Receipt where
  transaction_hash : B256
  status : Bool
deriving DecidableEq

/-- A parsed private key. -/
structure PrivateKeySigner where
  secret : B256
deriving DecidableEq

/-- Third-party code the services call: pure functions of their arguments.
`overflow_checks` is the cargo profile's setting for `usize` arithmetic. -/
structure Externals where
  keccak256 : Bytes → B256
  parseKey : String → Except String PrivateKeySigner
  signerAddress : PrivateKeySigner → Address
  signMessage : PrivateKeySigner → Bytes → Except String Bytes
  toValue : RpcLog → Except String Json
  fromValue : Json → Except String Log
  /-- `AMB_BRIDGE::UserRequestForAffirmation::decode_log`: the `encodedData`. -/
  decodeAmbAffirmation : Log → Except String Bytes
  /-- `AMB_BRIDGE::UserRequestForSignature::decode_log`: the `encodedData`. -/
  decodeAmbSignature : Log → Except String Bytes
  /-- `XDAI_BRIDGE::UserRequestForAffirmation::decode_log`. -/
  decodeXdaiAffirmation : Log → Except String (Address × U256 × B256)
  /-- `XDAI_BRIDGE::UserRequestForSignature::decode_log`: recipient, value,
  nonce and token. -/
  decodeXdaiSignature : Log → Except String (Address × U256 × B256 × Address)
  overflow_checks : Bool

end BridgeValidator
