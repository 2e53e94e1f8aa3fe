import BridgeValidator.Service.MsgProcessor

/-!
# On-chain sender

Relays one message at a time and settles its row: deleted, released for a
retry, or moved to stage `foreign`. The two affirmation arms and the two
signature arms of `process_message` differ in key, contract and preimage
only, so each pair is one definition applied to the arm's own values.
-/

namespace BridgeValidator

open Interaction

/-! ## The xDai message -/

structure ParsedXdaiMessage where
  recipient : Address
  value : U256
  nonce : B256
  bridge : Address
  token : Address
deriving DecidableEq

/-- `U256::from_be_bytes`. -/
def fromBeBytes (bs : Bytes) : U256 :=
  BitVec.ofNat 256 (bs.foldl (fun acc b => 256 * acc + b.toNat) 0)

/-- recipient 20, value 32, nonce 32, bridge 20, token 20. -/
def parseXdaiMessage (message : Bytes) : Except BridgeValidatorError ParsedXdaiMessage :=
  if h : message.length = 124 then
    .ok { recipient := ⟨message.take 20, by simp [h]⟩
          value := fromBeBytes ((message.drop 20).take 32)
          nonce := ⟨(message.drop 52).take 32, by simp [h]⟩
          bridge := ⟨(message.drop 84).take 20, by simp [h]⟩
          token := ⟨(message.drop 104).take 20, by simp [h]⟩ }
  else .error (.ParseXdaiMessage s!"unexpected length: {message.length}")

/-! ## Machine arithmetic -/

/-- A `usize` result: out of range it is a panic with overflow checks on, and
wraps without them. -/
def usizeOp (lib : Externals) (what : String) (n : Int) : Action Nat :=
  if 0 ≤ n ∧ n ≤ (u64Max : Int) then return n.toNat
  else if lib.overflow_checks then Act.panic s!"attempt to {what} with overflow"
  else return (n % 18446744073709551616).toNat

/-- `required.to::<usize>()`: panics when the value does not fit. -/
def toUsize (value : U256) : Action Nat :=
  if value.toNat ≤ u64Max then return value.toNat
  else Act.panic "Uint conversion error: value is too large for usize"

/-- `2 + 65 * required.to::<usize>() - 1`. -/
def expectedSignaturesLen (lib : Externals) (required : U256) : Action Nat := do
  let n ← toUsize required
  let product ← usizeOp lib "multiply" (65 * n)
  let sum ← usizeOp lib "add" (2 + product)
  usizeOp lib "subtract" ((sum : Int) - 1)

section

variable {σ : Type} {P : Protocol Calls σ} {g : σ} {lib : Externals}
  {Q : σ → Except (Exit BridgeValidatorError) Nat → Prop}

theorem follows_usizeOp {what : String} {n : Int} (hok : ∀ k, Q g (.ok k))
    (hpanic : ∀ m, Q g (.error (.panic m))) : Act.Follows P g (usizeOp lib what n) Q := by
  refine Act.follows_ite.mpr ⟨fun _ => hok _, fun _ => ?_⟩
  exact Act.follows_ite.mpr ⟨fun _ => hpanic _, fun _ => hok _⟩

/-- The length is some number or a panic, and no call is made for it. -/
theorem follows_expectedSignaturesLen {required : U256} (hok : ∀ k, Q g (.ok k))
    (hpanic : ∀ m, Q g (.error (.panic m))) :
    Act.Follows P g (expectedSignaturesLen lib required) Q := by
  unfold expectedSignaturesLen
  refine Act.follows_bind.mpr (Act.follows_ite.mpr ⟨fun _ => ?_, fun _ => hpanic _⟩)
  refine Act.follows_bind.mpr (follows_usizeOp (fun product => ?_) hpanic)
  refine Act.follows_bind.mpr (follows_usizeOp (fun sum => ?_) hpanic)
  exact follows_usizeOp hok hpanic

end

namespace OnChainSender

section

variable (lib : Externals) (cfg : Config)

/-! ## Row statements -/

def updateStage (event_log_id : Int) (stage : Stage) : Action Unit :=
  sql (.updateStage stage event_log_id)

/-- Put the row back into the claimable pool, one retry further. -/
def incrementRetryCount (event_log_id : Int) : Action Unit :=
  sql (.incrementRetryCount event_log_id)

def deleteEventLog (event_log_id : Int) : Action Unit := sql (.deleteEventLog event_log_id)

/-! ## Transactions -/

/-- `keccak256(abi.encodePacked(msg.sender, hashMsg))`. -/
def hashSender (signer : PrivateKeySigner) (hash_msg : B256) : B256 :=
  lib.keccak256 ((lib.signerAddress signer).bytes ++ hash_msg.bytes)

/-- Send and wait for the receipt. Any receipt deletes the row, whatever its
status flag says; a failed send or a missing receipt releases it. -/
def sendThenDelete (signer : PrivateKeySigner) (call : TxCall) (event_log_id : Int) :
    Action Unit := do
  match ← await (.rpc (.send event_log_id (lib.signerAddress signer) call)) with
  | .ok tx =>
      match ← await (.rpc (.getReceipt tx)) with
      | .ok _receipt => deleteEventLog event_log_id
      | .error _ => incrementRetryCount event_log_id
  | .error _ => incrementRetryCount event_log_id

/-- The `submit_result` block: send, then the receipt, with `?` on both. -/
def submitSignature (signer : PrivateKeySigner) (call : TxCall) (event_log_id : Int) :
    Action Unit := do
  let tx ← orErr .TxSubmit
    (← await (.rpc (.send event_log_id (lib.signerAddress signer) call)))
  let _receipt ← orErr .TxReceipt (← await (.rpc (.getReceipt tx)))
  return

/-- What becomes of a submission: no transaction, no receipt, or a receipt. -/
theorem follows_submitSignature {lib : Externals} {σ : Type}
    {P : Protocol Calls σ} {g : σ} {signer : PrivateKeySigner} {call : TxCall} {id : Int}
    {Q : σ → Except (Exit BridgeValidatorError) Unit → Prop} :
    Act.Follows P g (submitSignature lib signer call id) Q ↔
      let o : Op := .rpc (.send id (lib.signerAddress signer) call)
      P.allows g o ∧
        (∀ tx, P.admits g o (.ok tx) →
          let g' := P.next g o (.ok tx)
          P.allows g' (.rpc (.getReceipt tx)) ∧
            (∀ receipt, P.admits g' (.rpc (.getReceipt tx)) (.ok receipt) →
              Q (P.next g' (.rpc (.getReceipt tx)) (.ok receipt)) (.ok ())) ∧
            ∀ e, P.admits g' (.rpc (.getReceipt tx)) (.error e) →
              Q (P.next g' (.rpc (.getReceipt tx)) (.error e)) (.error (.error (.TxReceipt e)))) ∧
        ∀ e, P.admits g o (.error e) →
          Q (P.next g o (.error e)) (.error (.error (.TxSubmit e))) := by
  simp [submitSignature, Act.follows_bind, follows_await, follows_orErr, forall_except,
    Act.follows_pure]

/-! ## The arms of `process_message` -/

/-- `AmbEth` and `XdaiEth`: pre-flight, then `executeAffirmation`. -/
def affirm (bridge : Bridge) (key : Option String) (var : String) (contract_address : Address)
    (hash_msg : B256) (call : TxCall) (event_log_id : Int) : Action Unit := do
  let pk_signer ← loadSigner lib key var
  connect cfg.getGcRpc
  -- Check 1: require(!affirmationsSigned(hashSender))
  let already_affirmed ←
    view (.affirmationsSigned bridge contract_address (hashSender lib pk_signer hash_msg))
  if already_affirmed then
    deleteEventLog event_log_id
    return
  -- Checks 2 and 3: numAffirmationsSigned(hashMsg) < requiredSignatures()
  let signed ← view (.numAffirmationsSigned bridge contract_address hash_msg)
  let required ← view (.requiredSignatures bridge contract_address)
  if required ≤ signed then
    deleteEventLog event_log_id
    return
  sendThenDelete lib pk_signer call event_log_id

/-- The foreign execution proper: only a blob of the expected length is
executed, any other deletes the row. -/
def executeOnForeign (signer : PrivateKeySigner) (required : U256) (signatures : Bytes)
    (call : TxCall) (event_log_id : Int) : Action Unit := do
  if signatures.length = (← expectedSignaturesLen lib required) then
    connect cfg.getEthRpc
    sendThenDelete lib signer call event_log_id
  else
    let _expected ← expectedSignaturesLen lib required
    deleteEventLog event_log_id

/-- `AmbGc` and `XdaiGc`: the home stage, then `foreign` if the flag says so. -/
def signAndExecute (bridge : Bridge) (key : Option String) (var : String)
    (contract_address : Address) (signature message : Bytes)
    (execute_message_on_foreign : String)
    (foreign : PrivateKeySigner → U256 → Action Unit)
    (event_log_id : Int) (stage : Stage) : Action Unit := do
  let pk_signer ← loadSigner lib key var
  connect cfg.getGcRpc
  let required ← view (.requiredSignatures bridge contract_address)
  if stage ≠ .foreign then
    let hash_msg := lib.keccak256 message
    let signed ← view (.numMessagesSigned bridge contract_address hash_msg)
    -- Check 1: require(!isAlreadyProcessed(signed))
    if required ≤ signed then
      deleteEventLog event_log_id
      return
    -- Check 2: require(!messagesSigned(hashSender))
    let already_signed_by_validator ←
      view (.messagesSigned bridge contract_address (hashSender lib pk_signer hash_msg))
    if already_signed_by_validator then
      deleteEventLog event_log_id
      return
    let submit_result ← Act.attempt (submitSignature lib pk_signer
      (.submitSignature bridge contract_address signature message) event_log_id)
    if submit_result.isOk = false then
      incrementRetryCount event_log_id
      return
    if execute_message_on_foreign ≠ "true" then
      -- Not executing on the foreign chain
      deleteEventLog event_log_id
      return
    updateStage event_log_id .foreign
  -- Reached after a fresh submitSignature or on a claim with stage 'foreign'
  if execute_message_on_foreign = "true" then
    foreign pk_signer required

/-- The AMB foreign stage: the helper takes the message itself. -/
def ambForeign (message : Bytes) (event_log_id : Int) (signer : PrivateKeySigner)
    (required : U256) : Action Unit := do
  let signatures ← view (.ambGetSignatures cfg.amb_bridge_helper_address message)
  executeOnForeign lib cfg signer required signatures
    (.safeExecuteSignaturesWithAutoGasLimit cfg.eth_amb_bridge_address message signatures)
    event_log_id

/-- The xDai foreign stage: the helper takes a hash it computes from the
fields of the message. -/
def xdaiForeign (message : Bytes) (event_log_id : Int) (signer : PrivateKeySigner)
    (required : U256) : Action Unit := do
  let parsed ← Act.orThrow (parseXdaiMessage message)
  let msg_hash ← view (.xdaiGetMessageHash cfg.xdai_bridge_helper_address parsed.recipient
    parsed.value parsed.nonce parsed.token)
  let signatures ← view (.xdaiGetSignatures cfg.xdai_bridge_helper_address msg_hash)
  executeOnForeign lib cfg signer required signatures
    (.executeSignatures cfg.eth_xdai_bridge_address message signatures) event_log_id

def processMessage (msg : OnChainCallData) (event_log_id : Int) (stage : Stage) :
    Action Unit :=
  match msg with
  | .AmbEth contract_address calldata =>
      affirm lib cfg .amb cfg.amb_validator_private_key "AMB_VALIDATOR_PRIV_KEY"
        contract_address (lib.keccak256 calldata.message)
        (.ambExecuteAffirmation contract_address calldata.message) event_log_id
  | .AmbGc contract_address calldata =>
      signAndExecute lib cfg .amb cfg.amb_validator_private_key "AMB_VALIDATOR_PRIV_KEY"
        contract_address calldata.signature calldata.message
        cfg.amb_execute_message_on_foreign (ambForeign lib cfg calldata.message event_log_id)
        event_log_id stage
  | .XdaiEth contract_address calldata =>
      affirm lib cfg .xdai cfg.xdai_validator_private_key "XDAI_VALIDATOR_PRIV_KEY"
        contract_address
        (lib.keccak256 (calldata.recipient.bytes ++ toBeBytes calldata.value ++
          calldata.nonce.bytes))
        (.xdaiExecuteAffirmation contract_address calldata.recipient calldata.value
          calldata.nonce)
        event_log_id
  | .XdaiGc contract_address calldata =>
      signAndExecute lib cfg .xdai cfg.xdai_validator_private_key "XDAI_VALIDATOR_PRIV_KEY"
        contract_address calldata.signature calldata.message
        cfg.xdai_execute_message_on_foreign (xdaiForeign lib cfg calldata.message event_log_id)
        event_log_id stage

/-- One round of the loop in `start`: process, and release the row if an error
came out of `process_message`. -/
def handle (data : SenderData) : Action Unit := do
  match ← Act.attempt (processMessage lib cfg data.on_chain_calldata data.event_log_id
      data.stage) with
  | .ok () => return
  | .error _ => do
      let _ ← Act.attempt (incrementRetryCount data.event_log_id)
      return

end

end OnChainSender

end BridgeValidator
