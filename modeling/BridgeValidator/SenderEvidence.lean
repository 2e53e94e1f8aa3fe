import BridgeValidator.Roles
import BridgeValidator.Rounds

/-!
# What the sender's writes rest on

What has been seen by the time a pass over a message deletes its row or moves
it to stage `foreign`, for every configuration and every sequence of answers.
The pass is checked against `audit`, a protocol whose ghost state is the trace
so far.
-/

namespace BridgeValidator

open Interaction

namespace OnChainSender

variable {lib : Externals} {cfg : Config}

/-! ## The expected length -/

/-- The length of a blob with `required` signatures, as a `usize`. -/
def expectedLength (required : U256) : Nat :=
  (65 * required.toNat + 1) % 18446744073709551616

/-- That length can be computed without a panic. -/
def LengthFits (lib : Externals) (required : U256) : Prop :=
  required.toNat ≤ u64Max ∧
    (lib.overflow_checks = true → 65 * required.toNat + 2 ≤ u64Max)

theorem usizeOp_of_le {what : String} {n : Int} {k : Nat} (h : n = k) (hk : k ≤ u64Max) :
    usizeOp lib what n = pure k := by
  subst h
  have hrange : 0 ≤ (k : Int) ∧ (k : Int) ≤ u64Max := ⟨Int.natCast_nonneg k, Int.ofNat_le.mpr hk⟩
  unfold usizeOp
  rw [if_pos hrange, Int.toNat_natCast]

/-- Without overflow checks the result wraps. -/
theorem usizeOp_wraps {what : String} {n : Int} {k : Nat}
    (h : n % 18446744073709551616 = k) (hc : lib.overflow_checks = false) :
    usizeOp lib what n = pure k := by
  unfold usizeOp
  split
  · rename_i hn
    have hlt : n < 18446744073709551616 := by
      have hle := hn.2
      unfold u64Max at hle
      omega
    rw [← Int.emod_eq_of_lt hn.1 hlt, h, Int.toNat_natCast]
  · rw [if_neg (by simp [hc]), h, Int.toNat_natCast]

theorem usizeOp_panics (what : String) {k : Nat} (hk : u64Max < k)
    (hc : lib.overflow_checks = true) :
    usizeOp lib what k = Act.panic s!"attempt to {what} with overflow" := by
  unfold usizeOp
  rw [if_neg (fun h => absurd (Int.ofNat_le.mp h.2) (not_le.mpr hk)), if_pos hc]

theorem expectedSignaturesLen_eq {required : U256} (h : LengthFits lib required) :
    expectedSignaturesLen lib required =
      pure (expectedLength required) := by
  obtain ⟨hn, hc⟩ := h
  have hto : toUsize required = pure required.toNat := if_pos hn
  unfold expectedSignaturesLen expectedLength
  rw [hto, Act.pure_andThen]
  generalize required.toNat = n at *
  cases hov : lib.overflow_checks with
  | true =>
      have hle : 65 * n + 2 ≤ u64Max := hc hov
      have hlt : 65 * n + 1 < 18446744073709551616 := by
        unfold u64Max at hle
        omega
      rw [usizeOp_of_le (k := 65 * n) (by omega) (by omega), Act.pure_andThen,
        usizeOp_of_le (k := 65 * n + 2) (by omega) hle, Act.pure_andThen,
        usizeOp_of_le (k := 65 * n + 1) (by omega) (by omega), Nat.mod_eq_of_lt hlt]
  | false =>
      rw [usizeOp_wraps (k := 65 * n % 18446744073709551616) (by omega) hov, Act.pure_andThen,
        usizeOp_wraps (k := (65 * n + 2) % 18446744073709551616) (by omega) hov, Act.pure_andThen,
        usizeOp_wraps (k := (65 * n + 1) % 18446744073709551616) (by omega) hov]

theorem expectedSignaturesLen_panics {required : U256} (h : ¬LengthFits lib required) :
    ∃ m, expectedSignaturesLen lib required = Act.panic m := by
  unfold expectedSignaturesLen
  by_cases hn : required.toNat ≤ u64Max
  · have hto : toUsize required = pure required.toNat := if_pos hn
    obtain ⟨hov, hgt⟩ : lib.overflow_checks = true ∧ u64Max < 65 * required.toNat + 2 := by
      by_contra hcon
      exact h ⟨hn, fun hov => by_contra fun hle => hcon ⟨hov, not_le.mp hle⟩⟩
    rw [hto, Act.pure_andThen]
    generalize required.toNat = n at *
    by_cases hmul : 65 * n ≤ u64Max
    · rw [usizeOp_of_le (k := 65 * n) (by omega) hmul, Act.pure_andThen]
      have hadd := usizeOp_panics "add" hgt hov
      rw [show (2 + (65 * n : Nat) : Int) = (65 * n + 2 : Nat) by omega, hadd]
      exact ⟨_, rfl⟩
    · have hmul := usizeOp_panics "multiply" (not_le.mp hmul) hov
      rw [show (65 * n : Int) = (65 * n : Nat) by omega, hmul]
      exact ⟨_, rfl⟩
  · exact ⟨_, congrArg (· >>= _) (if_neg hn)⟩

/-! ## Evidence -/

/-- The bridge said that this validator has affirmed the message, or that
enough validators have. -/
def Affirmed (lib : Externals) (bridge : Bridge) (key : Option String)
    (contract_address : Address) (hash_msg : B256) (seen : Trace Calls) : Prop :=
  (∃ signer, IsSigner lib key signer ∧
    ⟨.rpc (.view (.affirmationsSigned bridge contract_address (hashSender lib signer hash_msg))),
      .ok true⟩ ∈ seen) ∨
  ∃ signed required, required ≤ signed ∧
    ⟨.rpc (.view (.numAffirmationsSigned bridge contract_address hash_msg)), .ok signed⟩ ∈ seen ∧
    ⟨.rpc (.view (.requiredSignatures bridge contract_address)), .ok required⟩ ∈ seen

/-- The same for a message that needs signatures. -/
def Signed (lib : Externals) (bridge : Bridge) (key : Option String)
    (contract_address : Address) (hash_msg : B256) (seen : Trace Calls) : Prop :=
  (∃ signer, IsSigner lib key signer ∧
    ⟨.rpc (.view (.messagesSigned bridge contract_address (hashSender lib signer hash_msg))),
      .ok true⟩ ∈ seen) ∨
  ∃ signed required, required ≤ signed ∧
    ⟨.rpc (.view (.numMessagesSigned bridge contract_address hash_msg)), .ok signed⟩ ∈ seen ∧
    ⟨.rpc (.view (.requiredSignatures bridge contract_address)), .ok required⟩ ∈ seen

/-- A pre-flight view reported that there is nothing left to attest. -/
def AlreadyAttested (lib : Externals) (cfg : Config) (seen : Trace Calls) :
    OnChainCallData → Prop
  | .AmbEth contract_address calldata =>
      Affirmed lib .amb cfg.amb_validator_private_key contract_address
        (lib.keccak256 calldata.message) seen
  | .AmbGc contract_address calldata =>
      Signed lib .amb cfg.amb_validator_private_key contract_address
        (lib.keccak256 calldata.message) seen
  | .XdaiEth contract_address calldata =>
      Affirmed lib .xdai cfg.xdai_validator_private_key contract_address
        (lib.keccak256 (calldata.recipient.bytes ++ toBeBytes calldata.value ++
          calldata.nonce.bytes)) seen
  | .XdaiGc contract_address calldata =>
      Signed lib .xdai cfg.xdai_validator_private_key contract_address
        (lib.keccak256 calldata.message) seen

/-- The helper answered with the signatures collected for the message. -/
def GotSignatures (cfg : Config) (signatures : Bytes) (seen : Trace Calls) :
    OnChainCallData → Prop
  | .AmbGc _ calldata =>
      ⟨.rpc (.view (.ambGetSignatures cfg.amb_bridge_helper_address calldata.message)),
        .ok signatures⟩ ∈ seen
  | .XdaiGc _ calldata => ∃ parsed msg_hash, parseXdaiMessage calldata.message = .ok parsed ∧
      ⟨.rpc (.view (.xdaiGetMessageHash cfg.xdai_bridge_helper_address parsed.recipient
        parsed.value parsed.nonce parsed.token)), .ok msg_hash⟩ ∈ seen ∧
      ⟨.rpc (.view (.xdaiGetSignatures cfg.xdai_bridge_helper_address msg_hash)),
        .ok signatures⟩ ∈ seen
  | _ => False

/-- The home bridge of a message that needs signatures answered with the number
it requires. -/
def GotRequired (required : U256) (seen : Trace Calls) : OnChainCallData → Prop
  | .AmbGc contract_address _ =>
      ⟨.rpc (.view (.requiredSignatures .amb contract_address)), .ok required⟩ ∈ seen
  | .XdaiGc contract_address _ =>
      ⟨.rpc (.view (.requiredSignatures .xdai contract_address)), .ok required⟩ ∈ seen
  | _ => False

/-- The signature blob does not have the length `65 * required + 1`. -/
def WrongLength (cfg : Config) (seen : Trace Calls) (msg : OnChainCallData) : Prop :=
  ∃ required signatures, GotRequired required seen msg ∧ GotSignatures cfg signatures seen msg ∧
    signatures.length ≠ expectedLength required

/-- The transaction by which this validator attests the message at home. -/
def IsAttestation (call : TxCall) : OnChainCallData → Prop
  | .AmbEth contract_address calldata =>
      call = .ambExecuteAffirmation contract_address calldata.message
  | .AmbGc contract_address calldata =>
      call = .submitSignature .amb contract_address calldata.signature calldata.message
  | .XdaiEth contract_address calldata =>
      call = .xdaiExecuteAffirmation contract_address calldata.recipient calldata.value
        calldata.nonce
  | .XdaiGc contract_address calldata =>
      call = .submitSignature .xdai contract_address calldata.signature calldata.message

/-- The transaction that executes the message on the foreign chain. -/
def IsExecution (cfg : Config) (call : TxCall) : OnChainCallData → Prop
  | .AmbGc _ calldata => ∃ signatures,
      call = .safeExecuteSignaturesWithAutoGasLimit cfg.eth_amb_bridge_address calldata.message
        signatures
  | .XdaiGc _ calldata => ∃ signatures,
      call = .executeSignatures cfg.eth_xdai_bridge_address calldata.message signatures
  | _ => False

/-- The last thing seen is the receipt of such a transaction, executed with
this status. -/
def EndsInReceipt (isCall : TxCall → Prop) (status : Bool) (seen : Trace Calls) : Prop :=
  ∃ before id signer call tx receipt,
    seen = before ++ [⟨.rpc (.send id signer call), .ok tx⟩, ⟨.rpc (.getReceipt tx), .ok receipt⟩] ∧
    isCall call ∧ receipt.status = status

/-- What licenses deleting the row. -/
def MayDelete (lib : Externals) (cfg : Config) (msg : OnChainCallData) (seen : Trace Calls) :
    Prop :=
  AlreadyAttested lib cfg seen msg ∨ WrongLength cfg seen msg ∨
    EndsInReceipt (fun call => IsAttestation call msg ∨ IsExecution cfg call msg) true seen

/-- What licenses moving it to stage `foreign`. -/
def MayStage (msg : OnChainCallData) (seen : Trace Calls) : Prop :=
  EndsInReceipt (fun call => IsAttestation call msg) true seen

/-- Every DELETE and every stage change of the trace was licensed when it was
issued. -/
structure WritesLicensed (lib : Externals) (cfg : Config) (msg : OnChainCallData)
    (tr : Trace Calls) : Prop where
  deleted : ∀ seen id x rest, tr = seen ++ ⟨.db (.deleteEventLog id), x⟩ :: rest →
    MayDelete lib cfg msg seen
  staged : ∀ seen stage id x rest, tr = seen ++ ⟨.db (.updateStage stage id), x⟩ :: rest →
    MayStage msg seen

/-- Every transaction that was mined was executed successfully. -/
def ReceiptsSucceed (tr : Trace Calls) : Prop :=
  ∀ tx receipt, ⟨.rpc (.getReceipt tx), .ok receipt⟩ ∈ tr → receipt.status = true

/-! ## What the home part leaves behind -/

variable {msg : OnChainCallData} {seen seen' : Trace Calls}

/-- The number of required signatures, if this is the answer to that view. -/
def requiredAnswer : Event Calls → Option U256
  | ⟨.rpc (.view (.requiredSignatures ..)), .ok required⟩ => some required
  | _ => none

/-- The signatures, if this is an answer of the helper. -/
def blobAnswer : Event Calls → Option Bytes
  | ⟨.rpc (.view (.ambGetSignatures ..)), .ok signatures⟩ => some signatures
  | ⟨.rpc (.view (.xdaiGetSignatures ..)), .ok signatures⟩ => some signatures
  | _ => none

theorem GotRequired.answer {required : U256} (h : GotRequired required seen msg) :
    ∃ e ∈ seen, requiredAnswer e = some required := by
  cases msg with
  | AmbGc | XdaiGc => exact ⟨_, h, rfl⟩
  | AmbEth | XdaiEth => exact h.elim

theorem GotSignatures.answer {signatures : Bytes} (h : GotSignatures cfg signatures seen msg) :
    ∃ e ∈ seen, blobAnswer e = some signatures := by
  cases msg with
  | AmbGc => exact ⟨_, h, rfl⟩
  | XdaiGc =>
      obtain ⟨_, _, _, _, hmem⟩ := h
      exact ⟨_, hmem, rfl⟩
  | AmbEth | XdaiEth => exact h.elim

/-- The threshold is known, and the helper has not been asked. -/
structure Asked (msg : OnChainCallData) (required : U256) (seen : Trace Calls) : Prop where
  answered : GotRequired required seen msg
  unique : ∀ e ∈ seen, ∀ r, requiredAnswer e = some r → r = required
  fresh : ∀ e ∈ seen, blobAnswer e = none

/-- The helper has answered. -/
structure Collected (cfg : Config) (msg : OnChainCallData) (required : U256)
    (signatures : Bytes) (seen : Trace Calls) : Prop where
  threshold : GotRequired required seen msg
  blob : GotSignatures cfg signatures seen msg
  unique : ∀ r b, GotRequired r seen msg → GotSignatures cfg b seen msg →
    r = required ∧ b = signatures

/-- New events that say nothing else about threshold and signatures. -/
theorem Asked.collected {required : U256} {signatures : Bytes} {new : Trace Calls}
    (h : Asked msg required seen) (hgot : GotSignatures cfg signatures (seen ++ new) msg)
    (hnew : ∀ e ∈ new, requiredAnswer e = none ∧ ∀ b, blobAnswer e = some b → b = signatures) :
    Collected cfg msg required signatures (seen ++ new) := by
  refine ⟨?_, hgot, fun r b hr hb => ⟨?_, ?_⟩⟩
  · have hanswered := h.answered
    cases msg with
    | AmbGc | XdaiGc => exact List.mem_append_left _ hanswered
    | AmbEth | XdaiEth => exact hanswered.elim
  · obtain ⟨e, he, hanswer⟩ := hr.answer
    rcases List.mem_append.mp he with he | he
    · exact h.unique e he r hanswer
    · rw [(hnew e he).1] at hanswer
      cases hanswer
  · obtain ⟨e, he, hanswer⟩ := hb.answer
    rcases List.mem_append.mp he with he | he
    · rw [h.fresh e he] at hanswer
      cases hanswer
    · exact (hnew e he).2 b hanswer

theorem Asked.collected_amb {contract_address : Address} {calldata : AmbGcCalldata}
    {required : U256} (h : Asked (.AmbGc contract_address calldata) required seen)
    (signatures : Bytes) :
    Collected cfg (.AmbGc contract_address calldata) required signatures (seen ++
      [⟨.rpc (.view (.ambGetSignatures cfg.amb_bridge_helper_address calldata.message)),
        .ok signatures⟩]) := by
  refine h.collected ?_ ?_
  · exact List.mem_append_right _ (List.mem_singleton_self _)
  · simp [requiredAnswer, blobAnswer]

theorem Asked.collected_xdai {contract_address : Address} {calldata : XdaiGcCalldata}
    {required : U256} (h : Asked (.XdaiGc contract_address calldata) required seen)
    {parsed : ParsedXdaiMessage} (hparsed : parseXdaiMessage calldata.message = .ok parsed)
    (msg_hash : B256) (signatures : Bytes) :
    Collected cfg (.XdaiGc contract_address calldata) required signatures (seen ++
      [⟨.rpc (.view (.xdaiGetMessageHash cfg.xdai_bridge_helper_address parsed.recipient
          parsed.value parsed.nonce parsed.token)), .ok msg_hash⟩] ++
      [⟨.rpc (.view (.xdaiGetSignatures cfg.xdai_bridge_helper_address msg_hash)),
        .ok signatures⟩]) := by
  rw [List.append_assoc]
  refine h.collected ?_ ?_
  · exact ⟨parsed, msg_hash, hparsed, by simp, by simp⟩
  · simp [requiredAnswer, blobAnswer]

/-! ## The audit of one pass -/

/-- The answer is a receipt without success. -/
def failedReceipt : Event Calls → Bool
  | ⟨.rpc (.getReceipt _), .ok receipt⟩ => !receipt.status
  | _ => false

theorem receiptsSucceed_iff {tr : Trace Calls} :
    ReceiptsSucceed tr ↔ ∀ e ∈ tr, failedReceipt e = false := by
  constructor
  · intro h e he
    unfold failedReceipt
    split
    · rw [h _ _ he]
      rfl
    · rfl
  · intro h tx receipt hmem
    simpa [failedReceipt] using h _ hmem

/-- A failed receipt is the last thing seen. -/
def EndsInFailure (seen : Trace Calls) : Prop := seen.getLast?.any failedReceipt = true

/-- Nothing seen so far would license a DELETE. -/
structure Unlicensed (lib : Externals) (cfg : Config) (msg : OnChainCallData)
    (seen : Trace Calls) : Prop where
  attested : ¬AlreadyAttested lib cfg seen msg
  length : ¬WrongLength cfg seen msg
  receipt : ¬EndsInFailure seen

/-- Writes are licensed or come right after a failed receipt, nothing else
comes right after one, and receipts are waited for only while there is no
licence. -/
def audit (lib : Externals) (cfg : Config) (msg : OnChainCallData) :
    Protocol Calls (Trace Calls) where
  allows seen
    | .db (.deleteEventLog _) => MayDelete lib cfg msg seen ∨ EndsInFailure seen
    | .db (.updateStage ..) => MayStage msg seen ∨ EndsInFailure seen
    | .rpc (.getReceipt _) => Unlicensed lib cfg msg seen
    | _ => ¬EndsInFailure seen
  admits _ _ _ := True
  next seen o x := seen ++ [⟨o, x⟩]

@[simp] theorem endsInFailure_nil : EndsInFailure [] ↔ False := by simp [EndsInFailure]

@[simp] theorem endsInFailure_append {e : Event Calls} :
    EndsInFailure (seen ++ [e]) ↔ failedReceipt e = true := by simp [EndsInFailure]

theorem EndsInFailure.mem (h : EndsInFailure seen) : ∃ e ∈ seen, failedReceipt e = true := by
  obtain ⟨e, he, hfailed⟩ := (Option.any_eq_true _ _).mp h
  exact ⟨e, List.mem_of_getLast? he, hfailed⟩

theorem not_endsInFailure {e : Event Calls} (h : failedReceipt e = false) :
    ¬EndsInFailure (seen ++ [e]) := by
  rw [endsInFailure_append, h]
  exact Bool.false_ne_true

/-- The licences other than the receipt look at the answered views only. -/
theorem unlicensed_congr (lib : Externals) (cfg : Config) (msg : OnChainCallData)
    (h : ∀ call x, (⟨.rpc (.view call), x⟩ : Event Calls) ∈ seen' ↔ ⟨.rpc (.view call), x⟩ ∈ seen) :
    (AlreadyAttested lib cfg seen' msg ↔ AlreadyAttested lib cfg seen msg) ∧
    (WrongLength cfg seen' msg ↔ WrongLength cfg seen msg) := by
  cases msg <;>
    simp only [AlreadyAttested, Affirmed, Signed, WrongLength, GotRequired, GotSignatures, h,
      and_self]

theorem Unlicensed.snoc (h : Unlicensed lib cfg msg seen) {e : Event Calls}
    (hview : ∀ call x, e ≠ ⟨.rpc (.view call), x⟩) (hreceipt : failedReceipt e = false) :
    Unlicensed lib cfg msg (seen ++ [e]) := by
  have hviews : ∀ call x, (⟨.rpc (.view call), x⟩ : Event Calls) ∈ seen ++ [e] ↔
      ⟨.rpc (.view call), x⟩ ∈ seen := by
    intro call x
    simp [(hview call x).symm]
  have hcongr := unlicensed_congr lib cfg msg hviews
  exact ⟨mt hcongr.1.mp h.attested, mt hcongr.2.mp h.length, not_endsInFailure hreceipt⟩

section

variable {id : Int} {signer : PrivateKeySigner} {call : TxCall} {stage : Stage}

theorem audit_deleteEventLog (h : MayDelete lib cfg msg seen ∨ EndsInFailure seen) :
    Act.Follows (audit lib cfg msg) seen (deleteEventLog id)
      fun seen _ => ¬EndsInFailure seen := by
  exact follows_sql.mpr ⟨h, fun _ _ => not_endsInFailure rfl, fun _ _ => not_endsInFailure rfl⟩

theorem audit_deleteAndReturn (h : MayDelete lib cfg msg seen ∨ EndsInFailure seen) :
    Act.Follows (audit lib cfg msg) seen (do deleteEventLog id; return)
      fun seen _ => ¬EndsInFailure seen := by
  refine Act.follows_bind.mpr ((audit_deleteEventLog h).mono ?_)
  rintro seen (_ | _) hseen <;> exact hseen

theorem audit_incrementRetryCount (h : ¬EndsInFailure seen) :
    Act.Follows (audit lib cfg msg) seen (incrementRetryCount id)
      fun seen _ => ¬EndsInFailure seen := by
  exact follows_sql.mpr ⟨h, fun _ _ => not_endsInFailure rfl, fun _ _ => not_endsInFailure rfl⟩

theorem EndsInReceipt.mono {p q : TxCall → Prop} {status : Bool}
    (h : EndsInReceipt p status seen) (hpq : ∀ call, p call → q call) :
    EndsInReceipt q status seen := by
  obtain ⟨before, id, signer, call, tx, receipt, heq, hcall, hstatus⟩ := h
  exact ⟨before, id, signer, call, tx, receipt, heq, hpq call hcall, hstatus⟩

theorem EndsInReceipt.not_endsInFailure {p : TxCall → Prop} (h : EndsInReceipt p true seen) :
    ¬EndsInFailure seen := by
  obtain ⟨before, id, signer, call, tx, receipt, rfl, -, hstatus⟩ := h
  simp [EndsInFailure, failedReceipt, hstatus]

theorem audit_releaseAndReturn (h : ¬EndsInFailure seen) :
    Act.Follows (audit lib cfg msg) seen (do incrementRetryCount id; return)
      fun seen _ => ¬EndsInFailure seen := by
  refine Act.follows_bind.mpr ((audit_incrementRetryCount h).mono ?_)
  rintro seen (_ | _) hseen <;> exact hseen

/-- A receipt either licenses the write that follows it or is a failed one. -/
theorem endsInReceipt_or_endsInFailure {isCall : TxCall → Prop} (hcall : isCall call)
    (seen : Trace Calls) (id : Int) (signer : Address) (tx : Nat) (receipt : Receipt) :
    EndsInReceipt isCall true (seen ++ [⟨.rpc (.send id signer call), .ok tx⟩] ++
      [⟨.rpc (.getReceipt tx), .ok receipt⟩]) ∨
    EndsInFailure (seen ++ [⟨.rpc (.send id signer call), .ok tx⟩] ++
      [⟨.rpc (.getReceipt tx), .ok receipt⟩]) := by
  cases hstatus : receipt.status with
  | true =>
      left
      refine ⟨seen, id, signer, call, tx, receipt, ?_, hcall, hstatus⟩
      rw [List.append_assoc]
      rfl
  | false =>
      right
      rw [endsInFailure_append]
      simp [failedReceipt, hstatus]

theorem audit_sendThenDelete (h : Unlicensed lib cfg msg seen)
    (hcall : IsAttestation call msg ∨ IsExecution cfg call msg) :
    Act.Follows (audit lib cfg msg) seen (sendThenDelete lib signer call id)
      fun seen _ => ¬EndsInFailure seen := by
  refine Act.follows_bind.mpr (follows_await.mpr ⟨h.receipt, ?_⟩)
  rintro (e | tx) -
  · -- the send failed: the row is released
    exact audit_incrementRetryCount (not_endsInFailure rfl)
  · refine Act.follows_bind.mpr (follows_await.mpr ⟨h.snoc (by simp) rfl, ?_⟩)
    rintro (e | receipt) -
    · -- no receipt: the row is released
      exact audit_incrementRetryCount (not_endsInFailure rfl)
    · apply audit_deleteEventLog
      rcases @endsInReceipt_or_endsInFailure call
        (fun call => IsAttestation call msg ∨ IsExecution cfg call msg) hcall seen id
        (lib.signerAddress signer) tx receipt with hmined | hfailed
      · exact Or.inl (Or.inr (Or.inr hmined))
      · exact Or.inr hfailed

end

section

variable {id : Int} {signer : PrivateKeySigner} {stage : Stage} {bridge : Bridge}
  {key : Option String} {var : String} {contract_address : Address} {hash_msg : B256}

theorem audit_connect {url : String}
    {Q : Trace Calls → Except (Exit BridgeValidatorError) Unit → Prop}
    (h : ¬EndsInFailure seen)
    (hok : Q (seen ++ [⟨.rpc (.connect url), .ok ()⟩]) (.ok ()))
    (herr : ∀ seen e, ¬EndsInFailure seen → Q seen (.error e)) :
    Act.Follows (audit lib cfg msg) seen (connect url) Q :=
  follows_connect.mpr ⟨h, fun _ _ => hok, fun _ _ => herr _ _ (not_endsInFailure rfl)⟩

theorem audit_view {call : ViewCall}
    {Q : Trace Calls → Except (Exit BridgeValidatorError) call.Ret → Prop}
    (h : ¬EndsInFailure seen)
    (hok : ∀ a, Q (seen ++ [⟨.rpc (.view call), .ok a⟩]) (.ok a))
    (herr : ∀ seen e, ¬EndsInFailure seen → Q seen (.error e)) :
    Act.Follows (audit lib cfg msg) seen (view call) Q :=
  follows_view.mpr ⟨h, fun a _ => hok a, fun _ _ => herr _ _ (not_endsInFailure rfl)⟩

theorem audit_affirm {call : TxCall}
    (hattested : ∀ seen, AlreadyAttested lib cfg seen msg ↔
      Affirmed lib bridge key contract_address hash_msg seen)
    (hlength : ∀ seen, ¬WrongLength cfg seen msg) (hcall : IsAttestation call msg) :
    Act.Follows (audit lib cfg msg) []
      (affirm lib cfg bridge key var contract_address hash_msg call id)
      fun seen _ => ¬EndsInFailure seen := by
  refine Act.follows_bind.mpr (follows_loadSigner.mpr
    ⟨fun _ => by simp, fun k hk => ⟨fun signer hsigner => ?_, fun _ _ => by simp⟩⟩)
  have hkey : IsSigner lib key signer := ⟨k, hk, hsigner⟩
  refine Act.follows_bind.mpr (audit_connect (by simp) ?_ fun _ _ h => h)
  refine Act.follows_bind.mpr (audit_view (not_endsInFailure rfl) ?_ fun _ _ h => h)
  intro already_affirmed
  refine Act.follows_ite.mpr ⟨fun haffirmed => ?_, fun haffirmed => ?_⟩
  · refine audit_deleteAndReturn (Or.inl (Or.inl ?_))
    rw [hattested]
    exact Or.inl ⟨signer, hkey, by simp [haffirmed]⟩
  · refine Act.follows_bind.mpr (audit_view (not_endsInFailure rfl) ?_ fun _ _ h => h)
    intro signed
    refine Act.follows_bind.mpr (audit_view (not_endsInFailure rfl) ?_ fun _ _ h => h)
    intro required
    refine Act.follows_ite.mpr ⟨fun hcount => ?_, fun hcount => ?_⟩
    · refine audit_deleteAndReturn (Or.inl (Or.inl ?_))
      rw [hattested]
      exact Or.inr ⟨signed, required, hcount, by simp, by simp⟩
    · refine audit_sendThenDelete ⟨?_, hlength _, not_endsInFailure rfl⟩ (Or.inl hcall)
      rw [hattested]
      have hfresh : already_affirmed = false := Bool.eq_false_iff.mpr haffirmed
      simp [Affirmed, hfresh, hcount]

theorem audit_executeOnForeign {required : U256} {signatures : Bytes} {call : TxCall}
    (hattested : ¬AlreadyAttested lib cfg seen msg) (hreceipt : ¬EndsInFailure seen)
    (h : Collected cfg msg required signatures seen) (hcall : IsExecution cfg call msg) :
    Act.Follows (audit lib cfg msg) seen
      (executeOnForeign lib cfg signer required signatures call id)
      fun seen _ => ¬EndsInFailure seen := by
  unfold executeOnForeign
  by_cases hfits : LengthFits lib required
  · rw [expectedSignaturesLen_eq hfits, Act.pure_andThen, Act.pure_andThen]
    refine Act.follows_ite.mpr ⟨fun hlen => ?_, fun hlen => ?_⟩
    · have hlength : ¬WrongLength cfg seen msg := by
        rintro ⟨r, b, hr, hb, hne⟩
        obtain ⟨rfl, rfl⟩ := h.unique r b hr hb
        exact hne hlen
      have hopen : Unlicensed lib cfg msg seen := ⟨hattested, hlength, hreceipt⟩
      refine Act.follows_bind.mpr (audit_connect hreceipt ?_ fun _ _ h => h)
      exact audit_sendThenDelete (hopen.snoc (by simp) rfl) (Or.inr hcall)
    · exact audit_deleteEventLog
        (Or.inl (Or.inr (Or.inl ⟨required, signatures, h.threshold, h.blob, hlen⟩)))
  · obtain ⟨m, hm⟩ := expectedSignaturesLen_panics hfits
    rw [hm, Act.panic_andThen]
    exact hreceipt

/-- The pass may go on to the foreign chain. -/
structure AtForeign (lib : Externals) (cfg : Config) (msg : OnChainCallData) (required : U256)
    (seen : Trace Calls) : Prop where
  asked : Asked msg required seen
  attested : ¬AlreadyAttested lib cfg seen msg
  receipt : ¬EndsInFailure seen

theorem audit_ambForeign {contract_address : Address} {calldata : AmbGcCalldata}
    {required : U256} (h : AtForeign lib cfg (.AmbGc contract_address calldata) required seen) :
    Act.Follows (audit lib cfg (.AmbGc contract_address calldata)) seen
      (ambForeign lib cfg calldata.message id signer required)
      fun seen _ => ¬EndsInFailure seen := by
  refine Act.follows_bind.mpr (audit_view h.receipt ?_ fun _ _ h => h)
  intro signatures
  refine audit_executeOnForeign ?_ (not_endsInFailure rfl) (h.asked.collected_amb signatures)
    ⟨signatures, rfl⟩
  have hattested := h.attested
  simpa [AlreadyAttested, Signed] using hattested

theorem audit_xdaiForeign {contract_address : Address} {calldata : XdaiGcCalldata}
    {required : U256} (h : AtForeign lib cfg (.XdaiGc contract_address calldata) required seen) :
    Act.Follows (audit lib cfg (.XdaiGc contract_address calldata)) seen
      (xdaiForeign lib cfg calldata.message id signer required)
      fun seen _ => ¬EndsInFailure seen := by
  refine Act.follows_bind.mpr (Act.follows_orThrow.mpr ⟨fun parsed hparsed => ?_,
    fun _ _ => h.receipt⟩)
  refine Act.follows_bind.mpr (audit_view h.receipt ?_ fun _ _ h => h)
  intro msg_hash
  refine Act.follows_bind.mpr (audit_view (not_endsInFailure rfl) ?_ fun _ _ h => h)
  intro signatures
  refine audit_executeOnForeign ?_ (not_endsInFailure rfl)
    (h.asked.collected_xdai hparsed msg_hash signatures) ⟨signatures, rfl⟩
  have hattested := h.attested
  simpa [AlreadyAttested, Signed] using hattested

theorem audit_signAndExecute {signature message : Bytes} {flag : String}
    {foreign : PrivateKeySigner → U256 → Action Unit}
    (hattested : ∀ seen, AlreadyAttested lib cfg seen msg ↔
      Signed lib bridge key contract_address (lib.keccak256 message) seen)
    (hrequired : ∀ required seen, GotRequired required seen msg ↔
      ⟨.rpc (.view (.requiredSignatures bridge contract_address)), .ok required⟩ ∈ seen)
    (hcall : IsAttestation (.submitSignature bridge contract_address signature message) msg)
    (hforeign : ∀ signer required seen, AtForeign lib cfg msg required seen →
      Act.Follows (audit lib cfg msg) seen (foreign signer required)
        fun seen _ => ¬EndsInFailure seen) :
    Act.Follows (audit lib cfg msg) []
      (signAndExecute lib cfg bridge key var contract_address signature message flag foreign id
        stage)
      fun seen _ => ¬EndsInFailure seen := by
  refine Act.follows_bind.mpr (follows_loadSigner.mpr
    ⟨fun _ => by simp, fun k hk => ⟨fun signer hsigner => ?_, fun _ _ => by simp⟩⟩)
  have hkey : IsSigner lib key signer := ⟨k, hk, hsigner⟩
  refine Act.follows_bind.mpr (audit_connect (by simp) ?_ fun _ _ h => h)
  refine Act.follows_bind.mpr (audit_view (not_endsInFailure rfl) ?_ fun _ _ h => h)
  intro required
  simp only
  by_cases hstage : stage = .foreign
  · -- claimed at stage `foreign`: only the flag is looked at
    rw [if_neg (not_not.mpr hstage)]
    refine Act.follows_ite.mpr ⟨fun _ => hforeign _ _ _ ?_, fun _ => not_endsInFailure rfl⟩
    refine ⟨⟨?_, ?_, ?_⟩, ?_, not_endsInFailure rfl⟩
    · rw [hrequired]
      simp
    · simp [requiredAnswer]
    · simp [blobAnswer]
    · rw [hattested]
      simp [Signed]
  · rw [if_pos hstage]
    refine Act.follows_bind.mpr (audit_view (not_endsInFailure rfl) ?_ fun _ _ h => h)
    intro signed
    refine Act.follows_ite.mpr ⟨fun hcount => ?_, fun hcount => ?_⟩
    · refine audit_deleteAndReturn (Or.inl (Or.inl ?_))
      rw [hattested]
      exact Or.inr ⟨signed, required, hcount, by simp, by simp⟩
    · refine Act.follows_bind.mpr (audit_view (not_endsInFailure rfl) ?_ fun _ _ h => h)
      intro already_signed_by_validator
      refine Act.follows_ite.mpr ⟨fun hsigned => ?_, fun hsigned => ?_⟩
      · refine audit_deleteAndReturn (Or.inl (Or.inl ?_))
        rw [hattested]
        exact Or.inl ⟨signer, hkey, by simp [hsigned]⟩
      · have hfresh : already_signed_by_validator = false := Bool.eq_false_iff.mpr hsigned
        refine Act.follows_bind.mpr (Act.follows_attempt.mpr (follows_submitSignature.mpr
          ⟨not_endsInFailure rfl, fun tx _ => ⟨⟨?_, ?_, not_endsInFailure rfl⟩, ?_, ?_⟩, ?_⟩))
        · rw [hattested]
          simp [Signed, audit, hfresh, hcount]
        · rintro ⟨_, _, _, hb, _⟩
          obtain ⟨e, he, heb⟩ := hb.answer
          revert e
          simp [audit, blobAnswer]
        · intro receipt _
          have hreceipt := fun seen => @endsInReceipt_or_endsInFailure _
            (fun call => IsAttestation call msg) hcall seen id (lib.signerAddress signer) tx receipt
          refine Act.follows_ite.mpr ⟨fun herr => Bool.noConfusion herr, fun _ => ?_⟩
          refine Act.follows_ite.mpr ⟨fun _ => ?_, fun _ => ?_⟩
          · refine audit_deleteAndReturn ((hreceipt _).imp_left fun hmined => ?_)
            exact Or.inr (Or.inr (hmined.mono fun _ => Or.inl))
          · refine Act.follows_bind.mpr (follows_sql.mpr ⟨hreceipt _, fun _ _ => ?_,
              fun _ _ => not_endsInFailure rfl⟩)
            refine Act.follows_ite.mpr ⟨fun _ => hforeign _ _ _ ?_,
              fun _ => not_endsInFailure rfl⟩
            refine ⟨⟨?_, ?_, ?_⟩, ?_, not_endsInFailure rfl⟩
            · rw [hrequired]
              simp [audit]
            · simp [audit, requiredAnswer]
            · simp [audit, blobAnswer]
            · rw [hattested]
              simp [Signed, audit, hfresh, hcount]
        · intro e _
          exact Act.follows_ite.mpr ⟨fun _ => audit_releaseAndReturn (not_endsInFailure rfl),
            fun hok => absurd rfl hok⟩
        · intro e _
          exact Act.follows_ite.mpr ⟨fun _ => audit_releaseAndReturn (not_endsInFailure rfl),
            fun hok => absurd rfl hok⟩

theorem audit_processMessage :
    Act.Follows (audit lib cfg msg) [] (processMessage lib cfg msg id stage)
      fun seen _ => ¬EndsInFailure seen := by
  cases msg with
  | AmbEth contract_address calldata =>
      refine audit_affirm (fun _ => Iff.rfl) (fun _ => ?_) rfl
      rintro ⟨_, _, hr, _⟩
      exact hr
  | AmbGc contract_address calldata =>
      exact audit_signAndExecute (fun _ => Iff.rfl) (fun _ _ => Iff.rfl) rfl
        fun _ _ _ h => audit_ambForeign h
  | XdaiEth contract_address calldata =>
      refine audit_affirm (fun _ => Iff.rfl) (fun _ => ?_) rfl
      rintro ⟨_, _, hr, _⟩
      exact hr
  | XdaiGc contract_address calldata =>
      exact audit_signAndExecute (fun _ => Iff.rfl) (fun _ _ => Iff.rfl) rfl
        fun _ _ _ h => audit_xdaiForeign h

end

/-- Every call of a pass is one the audit allows, and it does not end on a
failed receipt. -/
theorem audit_runs {tr : Trace Calls} {result : Except (Exit BridgeValidatorError) Unit}
    {id : Int} {stage : Stage} (hr : (processMessage lib cfg msg id stage).Runs tr result) :
    (∀ seen e rest, tr = seen ++ e :: rest → (audit lib cfg msg).allows seen e.op) ∧
      ¬EndsInFailure tr := by
  have hfollows := Prog.Follows.of_runs audit_processMessage hr
    (Protocol.admitted_of_all _ (fun _ _ _ => trivial) _ _)
  have hafter : ∀ tr, (audit lib cfg msg).after [] tr = tr :=
    Protocol.after_eq_append (fun _ _ _ => rfl) []
  rw [hafter] at hfollows
  refine ⟨?_, hfollows.2⟩
  rintro seen e rest rfl
  have hallowed := ((audit lib cfg msg).allowed_append.mp hfollows.1).2.1
  rwa [hafter] at hallowed

/-- If all transactions succeed, every write is licensed. -/
theorem writesLicensed_of_receipts {tr : Trace Calls}
    {result : Except (Exit BridgeValidatorError) Unit} {id : Int} {stage : Stage}
    (hr : (processMessage lib cfg msg id stage).Runs tr result) (hsucc : ReceiptsSucceed tr) :
    WritesLicensed lib cfg msg tr := by
  have hnofail : ∀ seen e rest, tr = seen ++ e :: rest → ¬EndsInFailure seen := by
    rintro seen e rest rfl hfail
    obtain ⟨e', he', hfailed⟩ := hfail.mem
    rw [receiptsSucceed_iff.mp hsucc e' (List.mem_append_left _ he')] at hfailed
    cases hfailed
  have hallowed := (audit_runs hr).1
  constructor
  · intro seen id x rest heq
    exact (hallowed seen _ rest heq).resolve_right (hnofail seen _ rest heq)
  · intro seen stage id x rest heq
    exact (hallowed seen _ rest heq).resolve_right (hnofail seen _ rest heq)

/-- A write that follows a failed receipt is not. -/
theorem receipts_of_writesLicensed {tr : Trace Calls}
    {result : Except (Exit BridgeValidatorError) Unit} {id : Int} {stage : Stage}
    (hr : (processMessage lib cfg msg id stage).Runs tr result)
    (hlic : WritesLicensed lib cfg msg tr) : ReceiptsSucceed tr := by
  obtain ⟨hallowed, hend⟩ := audit_runs hr
  intro tx receipt hmem
  by_contra hfailed
  obtain ⟨seen, rest, rfl⟩ := List.append_of_mem hmem
  have hopen : Unlicensed lib cfg msg seen := hallowed seen _ rest rfl
  have hfail : EndsInFailure (seen ++ [⟨.rpc (.getReceipt tx), .ok receipt⟩]) := by
    rw [endsInFailure_append]
    simpa [failedReceipt] using hfailed
  have hviews : ∀ call x, (⟨.rpc (.view call), x⟩ : Event Calls) ∈
      seen ++ [⟨.rpc (.getReceipt tx), .ok receipt⟩] ↔ ⟨.rpc (.view call), x⟩ ∈ seen := by
    simp
  have hcongr := unlicensed_congr lib cfg msg hviews
  cases rest with
  | nil => exact hend hfail
  | cons e rest =>
      have hsplit : seen ++ ⟨.rpc (.getReceipt tx), .ok receipt⟩ :: e :: rest =
          (seen ++ [⟨.rpc (.getReceipt tx), .ok receipt⟩]) ++ e :: rest := by simp
      have hnext := hallowed _ e rest hsplit
      obtain ⟨o, x⟩ := e
      cases o with
      | rpc r =>
          cases r with
          | getReceipt tx => exact hnext.receipt hfail
          | _ => exact hnext hfail
      | channelSend data => exact hnext hfail
      | db st =>
          cases st with
          | deleteEventLog id =>
              rcases hlic.deleted _ id x rest hsplit with hattested | hlength | hmined
              · exact hopen.attested (hcongr.1.mp hattested)
              · exact hopen.length (hcongr.2.mp hlength)
              · exact hmined.not_endsInFailure hfail
          | updateStage stage id =>
              exact (hlic.staged _ stage id x rest hsplit).not_endsInFailure hfail
          | _ => exact hnext hfail

/-- **What the deletes and stage changes of a pass rest on.** They are all
licensed exactly when every transaction that was mined was successful: the
status flag of a receipt is never looked at. -/
theorem writes_licensed_iff_receipts_succeed {tr : Trace Calls}
    {result : Except (Exit BridgeValidatorError) Unit} {id : Int} {stage : Stage}
    (hr : (processMessage lib cfg msg id stage).Runs tr result) :
    WritesLicensed lib cfg msg tr ↔ ReceiptsSucceed tr :=
  ⟨receipts_of_writesLicensed hr, writesLicensed_of_receipts hr⟩

/-- A pass over an affirmation whose transaction is mined with this status. -/
def affirmationPass (status : Bool) :
    Trace Calls × Except (Exit BridgeValidatorError) Unit :=
  Deployment.runAlone (Deployment.relay status)
    (processMessage Deployment.externals Deployment.config
      (.AmbEth (.repeatByte 20 0x12) { message := [1, 2, 3] }) 1 .home)

/-- Mined and successful, and the row is deleted. -/
theorem writes_licensed_iff_receipts_succeed_affirmed :
    (affirmationPass true).1.any (fun e => e.op matches .db (.deleteEventLog 1)) = true ∧
    WritesLicensed Deployment.externals Deployment.config
      (.AmbEth (.repeatByte 20 0x12) { message := [1, 2, 3] }) (affirmationPass true).1 := by
  have hr := Deployment.runAlone_runs (Deployment.relay true)
    (processMessage Deployment.externals Deployment.config
      (.AmbEth (.repeatByte 20 0x12) { message := [1, 2, 3] }) 1 .home)
  have hsucc : ∀ e ∈ (affirmationPass true).1, failedReceipt e = false := by decide +kernel
  exact ⟨by decide +kernel,
    (writes_licensed_iff_receipts_succeed hr).mpr (receiptsSucceed_iff.mpr hsucc)⟩

/-- Mined and reverted, and the row is deleted all the same. -/
theorem row_deleted_after_reverted_transaction :
    ¬ ∀ (lib : Externals) (cfg : Config) (msg : OnChainCallData) (id : Int) (stage : Stage)
      (tr : Trace Calls) (result : Except (Exit BridgeValidatorError) Unit),
      (processMessage lib cfg msg id stage).Runs tr result → WritesLicensed lib cfg msg tr := by
  intro hclaim
  have hr := Deployment.runAlone_runs (Deployment.relay false)
    (processMessage Deployment.externals Deployment.config
      (.AmbEth (.repeatByte 20 0x12) { message := [1, 2, 3] }) 1 .home)
  have hsucc : ReceiptsSucceed (affirmationPass false).1 :=
    receipts_of_writesLicensed hr (hclaim _ _ _ _ _ _ _ hr)
  have hfailed : ¬∀ e ∈ (affirmationPass false).1, failedReceipt e = false := by decide +kernel
  exact hfailed (receiptsSucceed_iff.mp hsucc)

end OnChainSender

end BridgeValidator
