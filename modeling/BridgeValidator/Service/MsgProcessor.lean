import BridgeValidator.Calls
import Mathlib.Algebra.Group.Nat.Defs

/-!
# Message processor

Claims a row, decodes its log, signs where the bridge asks for it, and hands
the calldata to the sender. Nothing here writes to the row after the claim.
-/

namespace BridgeValidator

open Interaction

/-- `value.to_be_bytes::<32>()`. -/
def toBeBytes (value : U256) : Bytes :=
  (List.range 32).map fun i => UInt8.ofNat (value.toNat / 256 ^ (31 - i))

/-- Bytes of a pair-wise hex text. -/
def hexPairs : List Char → Option Bytes
  | [] => some []
  | [_] => none
  | a :: b :: rest => do
      let hi ← hexVal a
      let lo ← hexVal b
      return UInt8.ofNat (16 * hi + lo) :: (← hexPairs rest)

/-- `hex::decode`: an optional `0x`, then pairs of digits. -/
def hexDecode (cs : List Char) : Except String Bytes :=
  let digits := match cs with
    | '0' :: 'x' :: rest => rest
    | cs => cs
  match hexPairs digits with
  | some bs => .ok bs
  | none => .error "invalid hex"

/-- The parsed or missing key of one bridge. -/
def loadSigner (lib : Externals) (key : Option String) (var : String) :
    Action PrivateKeySigner :=
  match key with
  | none => Act.throw (.MissingEnv var)
  | some key => orErr .KeyParse (lib.parseKey key)

/-- The signer `loadSigner` makes of a configured key. -/
def IsSigner (lib : Externals) (key : Option String) (signer : PrivateKeySigner) : Prop :=
  ∃ text, key = some text ∧ lib.parseKey text = .ok signer

theorem follows_loadSigner {σ : Type} {P : Protocol Calls σ} {g : σ} {lib : Externals}
    {key : Option String} {var : String}
    {Q : σ → Except (Exit BridgeValidatorError) PrivateKeySigner → Prop} :
    Act.Follows P g (loadSigner lib key var) Q ↔
      (key = none → Q g (.error (.error (.MissingEnv var)))) ∧
      ∀ k, key = some k → (∀ s, lib.parseKey k = .ok s → Q g (.ok s)) ∧
        ∀ e, lib.parseKey k = .error e → Q g (.error (.error (.KeyParse e))) := by
  cases key <;> simp [loadSigner, follows_orErr, Act.follows_throw]

namespace MessageProcessor

section

variable (lib : Externals) (cfg : Config)

/-- `if hex.len() != want { return Err(InvalidFieldLength { .. }) }`. -/
def checkLen (field : String) (hex : String) (bytes : Nat) : Except BridgeValidatorError Unit :=
  if hex.utf8ByteSize ≠ 2 * bytes then
    .error (.InvalidFieldLength field bytes (hex.utf8ByteSize / 2))
  else .ok ()

/-- recipient, value, nonce, bridge and token as `0x` and 248 hex digits. -/
def createXdaiMessage (recipient : Address) (value : U256) (nonce : B256)
    (token_address : Address) : Except BridgeValidatorError String := do
  let recipient_hex := hexEncode recipient.bytes
  checkLen "recipient" recipient_hex 20
  let value_hex := hexEncode (toBeBytes value)
  checkLen "value" value_hex 32
  let nonce_hex := hexEncode nonce.bytes
  checkLen "nonce" nonce_hex 32
  let bridge_address_hex := hexEncode cfg.eth_xdai_bridge_address.bytes
  checkLen "bridge_address" bridge_address_hex 20
  let token_address_hex := hexEncode token_address.bytes
  checkLen "token_address" token_address_hex 20
  let message := "0x" ++ recipient_hex ++ value_hex ++ nonce_hex ++ bridge_address_hex ++
    token_address_hex
  if message.utf8ByteSize ≠ 250 then
    .error (.InvalidFieldLength "message" 124 ((message.utf8ByteSize - 2) / 2))
  else .ok message

/-- `self.tokio_sender.send(..)`, with the stage read from the row. -/
def handOver (event_log : EventLogRow) (calldata : OnChainCallData) : Action Unit := do
  orErr .ChannelSend (← await (.channelSend
    { on_chain_calldata := calldata, event_log_id := event_log.id,
      stage := event_log.stage.getD .home }))

def processMessageOrSkip (event_log : EventLogRow) : Action Unit := do
  let log ← orErr .LogJson (lib.fromValue event_log.log_data)
  match event_log.bridge_mode with
  | .AMB_ETH => do
      let encodedData ← orErr .LogDecode (lib.decodeAmbAffirmation log)
      handOver event_log (.AmbEth cfg.gc_amb_bridge_address { message := encodedData })
  | .AMB_GC => do
      let encodedData ← orErr .LogDecode (lib.decodeAmbSignature log)
      let pk_signer ← loadSigner lib cfg.amb_validator_private_key "AMB_VALIDATOR_PRIV_KEY"
      let signature ← orErr .Sign (lib.signMessage pk_signer encodedData)
      handOver event_log (.AmbGc cfg.gc_amb_bridge_address
        { signature := signature, message := encodedData })
  | .XDAI_ETH => do
      let (recipient, value, nonce) ← orErr .LogDecode (lib.decodeXdaiAffirmation log)
      handOver event_log (.XdaiEth cfg.gc_xdai_bridge_address
        { recipient := recipient, value := value, nonce := nonce })
  | .XDAI_GC => do
      let (recipient, value, nonce, token) ← orErr .LogDecode (lib.decodeXdaiSignature log)
      let xdai_message ← Act.orThrow (createXdaiMessage cfg recipient value nonce token)
      let pk_signer ← loadSigner lib cfg.xdai_validator_private_key "XDAI_VALIDATOR_PRIV_KEY"
      let message_bytes ← orErr .HexDecode (hexDecode (xdai_message.toList.drop 2))
      let signature ← orErr .Sign (lib.signMessage pk_signer message_bytes)
      handOver event_log (.XdaiGc cfg.gc_xdai_bridge_address
        { signature := signature, message := message_bytes })
  | .other _ => return

/-- The next claimable row, marked as claimed. -/
def readFromDb : Action (Option EventLogRow) := sql (.claim cfg.retryCeiling)

/-- One round of the loop in `start`; errors are logged and the loop goes on. -/
def iteration : Action Unit := do
  match ← Act.attempt (readFromDb cfg) with
  | .ok (some event_log) => do
      let _ ← Act.attempt (processMessageOrSkip lib cfg event_log)
      return
  | .ok none => return
  | .error _ => return

end

end MessageProcessor

end BridgeValidator
