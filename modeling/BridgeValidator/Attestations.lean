import BridgeValidator.HomeBridge
import BridgeValidator.SenderEvidence

/-!
# One attestation for each validator and message

Before it attests, a pass reads the flag and the counter, in one order for affirmations
and in the other for signatures. What has been read stays true until the transaction is
handed over: only this sender sets the flag, and it has nothing of the kind under way.
So whatever sequence of messages the sender is given, it never attests twice.
-/

namespace BridgeValidator

open Interaction

/-! ## What a pass may attest -/

/-- The address that goes with a configured key. -/
def validatorOf (lib : Externals) (key : Option String) : Option Address :=
  key.bind fun text => match lib.parseKey text with
    | .ok signer => some (lib.signerAddress signer)
    | .error _ => none

theorem validatorOf_eq {lib : Externals} {key : Option String} {signer : PrivateKeySigner}
    (h : IsSigner lib key signer) : validatorOf lib key = some (lib.signerAddress signer) := by
  obtain ⟨text, rfl, hparse⟩ := h
  simp [validatorOf, hparse]

/-- The validator and message of a pass. -/
def SenderData.attestation (lib : Externals) (cfg : Config) (data : SenderData) :
    Option Attestation :=
  match data.on_chain_calldata with
  | .AmbEth contract_address calldata =>
      (validatorOf lib cfg.amb_validator_private_key).map fun validator =>
        ⟨contract_address, validator, .ambAffirmation calldata.message⟩
  | .AmbGc contract_address calldata =>
      (validatorOf lib cfg.amb_validator_private_key).map fun validator =>
        ⟨contract_address, validator, .signature .amb calldata.message⟩
  | .XdaiEth contract_address calldata =>
      (validatorOf lib cfg.xdai_validator_private_key).map fun validator =>
        ⟨contract_address, validator,
          .xdaiAffirmation calldata.recipient calldata.value calldata.nonce⟩
  | .XdaiGc contract_address calldata =>
      (validatorOf lib cfg.xdai_validator_private_key).map fun validator =>
        ⟨contract_address, validator, .signature .xdai calldata.message⟩

/-- What a call attests: nothing, unless it hands over an attesting transaction. -/
def Op.attests : Op → Option Attestation
  | .rpc (.send _ sender call) => call.attests sender
  | _ => none

namespace OnChainSender

/-- An attesting transaction has been handed over. -/
def HasAttested (seen : Trace Calls) : Bool := seen.any fun e => e.op.attests.isSome

/-- The flag was read as not set, and the counter as below the threshold. -/
structure Cleared (lib : Externals) (a : Attestation) (seen : Trace Calls) : Prop where
  unset : a.flagEvent lib false ∈ seen
  below : ∃ signed required, signed < required ∧ a.counterEvent lib signed ∈ seen ∧
    a.thresholdEvent required ∈ seen

/-- A pass attests its own message, once, and after reading what clears it. -/
def attesting (lib : Externals) (cfg : Config) (data : SenderData) :
    Protocol Calls (Trace Calls) where
  allows seen o := ∀ a, o.attests = some a →
    data.attestation lib cfg = some a ∧ Cleared lib a seen ∧ HasAttested seen = false
  admits _ _ _ := True
  next seen o x := seen ++ [⟨o, x⟩]

section

variable {lib : Externals} {cfg : Config} {data : SenderData} {seen : Trace Calls}

/-- What does not attest is allowed at any time. -/
theorem attesting_free {o : Op} (h : o.attests = none) :
    (attesting lib cfg data).allows seen o := by
  intro a ha
  cases h.symm.trans ha

@[simp] theorem attesting_view {call : ViewCall} :
    (attesting lib cfg data).allows seen (.rpc (.view call)) ↔ True :=
  iff_true_intro (attesting_free rfl)

@[simp] theorem attesting_connect {url : String} :
    (attesting lib cfg data).allows seen (.rpc (.connect url)) ↔ True :=
  iff_true_intro (attesting_free rfl)

@[simp] theorem attesting_getReceipt {tx : Nat} :
    (attesting lib cfg data).allows seen (.rpc (.getReceipt tx)) ↔ True :=
  iff_true_intro (attesting_free rfl)

@[simp] theorem attesting_db {st : Stmt} :
    (attesting lib cfg data).allows seen (.db st) ↔ True :=
  iff_true_intro (attesting_free rfl)

@[simp] theorem attesting_admits {o : Op} {x : o.Ans} :
    (attesting lib cfg data).admits seen o x ↔ True := Iff.rfl

end

section

variable {lib : Externals} {cfg : Config} {data : SenderData} {seen : Trace Calls} {id : Int}
  {contract_address : Address}

attribute [local simp] Act.follows_bind Act.follows_pure Act.follows_panic Act.follows_ite
  Act.follows_orThrow Act.follows_attempt follows_await follows_sql follows_view
  follows_connect follows_orErr follows_loadSigner forall_except

theorem attesting_sendThenDelete {signer : PrivateKeySigner} {call : TxCall}
    (h : ∀ a, call.attests (lib.signerAddress signer) = some a →
      data.attestation lib cfg = some a ∧ Cleared lib a seen ∧ HasAttested seen = false) :
    Act.Follows (attesting lib cfg data) seen (sendThenDelete lib signer call id)
      fun _ _ => True := by
  have hsend : (attesting lib cfg data).allows seen
      (.rpc (.send id (lib.signerAddress signer) call)) := h
  simp [sendThenDelete, deleteEventLog, incrementRetryCount, hsend]

/-- Affirmations: first the flag, then the counter. -/
theorem attesting_affirm {bridge : Bridge} {key : Option String} {var : String}
    {call : TxCall} (subject : Subject) (hbridge : subject.bridge = bridge)
    (hkind : subject.isSignature = false)
    (hdata : data.attestation lib cfg =
      (validatorOf lib key).map fun validator => ⟨contract_address, validator, subject⟩)
    (hcall : ∀ sender, call.attests sender = some ⟨contract_address, sender, subject⟩) :
    Act.Follows (attesting lib cfg data) []
      (affirm lib cfg bridge key var contract_address (lib.keccak256 subject.preimage) call id)
      fun _ _ => True := by
  subst hbridge
  refine Act.follows_bind.mpr (follows_loadSigner.mpr ⟨fun _ => trivial,
    fun text hkey => ⟨fun signer hparse => ?_, fun _ _ => trivial⟩⟩)
  refine Act.follows_bind.mpr (follows_connect.mpr ⟨attesting_free rfl, fun _ _ => ?_,
    fun _ _ => trivial⟩)
  refine Act.follows_bind.mpr (follows_view.mpr ⟨attesting_free rfl,
    fun already_affirmed _ => ?_, fun _ _ => trivial⟩)
  refine Act.follows_ite.mpr ⟨fun _ => by simp [deleteEventLog], fun hfresh => ?_⟩
  refine Act.follows_bind.mpr (follows_view.mpr ⟨attesting_free rfl, fun signed _ => ?_,
    fun _ _ => trivial⟩)
  refine Act.follows_bind.mpr (follows_view.mpr ⟨attesting_free rfl, fun required _ => ?_,
    fun _ _ => trivial⟩)
  refine Act.follows_ite.mpr ⟨fun _ => by simp [deleteEventLog], fun hbelow => ?_⟩
  apply attesting_sendThenDelete
  intro a ha
  obtain rfl := Option.some.inj ((hcall _).symm.trans ha)
  refine ⟨?_, ⟨?_, signed, required, BitVec.not_le.mp hbelow, ?_, ?_⟩, ?_⟩
  · rw [hdata, validatorOf_eq ⟨text, hkey, hparse⟩]
    rfl
  · obtain rfl : already_affirmed = false := Bool.eq_false_iff.mpr hfresh
    simp [attesting, Attestation.flagEvent, hkind, Attestation.hashSender,
      Attestation.senderPreimage, Attestation.hashMsg, hashSender]
  · simp [attesting, Attestation.counterEvent, hkind, Attestation.hashMsg]
  · simp [attesting, Attestation.thresholdEvent]
  · rfl

theorem attesting_executeOnForeign {signer : PrivateKeySigner} {required : U256}
    {signatures : Bytes} {call : TxCall} (hcall : ∀ sender, call.attests sender = none) :
    Act.Follows (attesting lib cfg data) seen
      (executeOnForeign lib cfg signer required signatures call id) fun _ _ => True := by
  have hsend : ∀ seen, Act.Follows (attesting lib cfg data) seen
      (sendThenDelete lib signer call id) fun _ _ => True := by
    intro seen
    apply attesting_sendThenDelete
    intro a ha
    rw [hcall] at ha
    cases ha
  refine Act.follows_bind.mpr (follows_expectedSignaturesLen (fun expected => ?_) fun _ => trivial)
  refine Act.follows_ite.mpr ⟨fun _ => ?_, fun _ => ?_⟩
  · exact Act.follows_bind.mpr (follows_connect.mpr ⟨attesting_free rfl, fun _ _ => hsend _,
      fun _ _ => trivial⟩)
  · refine Act.follows_bind.mpr (follows_expectedSignaturesLen (fun _ => ?_) fun _ => trivial)
    simp [deleteEventLog]

theorem attesting_ambForeign {message : Bytes} {signer : PrivateKeySigner} {required : U256} :
    Act.Follows (attesting lib cfg data) seen (ambForeign lib cfg message id signer required)
      fun _ _ => True := by
  refine Act.follows_bind.mpr (follows_view.mpr ⟨attesting_free rfl, fun signatures _ => ?_,
    fun _ _ => trivial⟩)
  exact attesting_executeOnForeign fun _ => rfl

theorem attesting_xdaiForeign {message : Bytes} {signer : PrivateKeySigner} {required : U256} :
    Act.Follows (attesting lib cfg data) seen (xdaiForeign lib cfg message id signer required)
      fun _ _ => True := by
  refine Act.follows_bind.mpr (Act.follows_orThrow.mpr ⟨fun parsed _ => ?_, fun _ _ => trivial⟩)
  refine Act.follows_bind.mpr (follows_view.mpr ⟨attesting_free rfl, fun msg_hash _ => ?_,
    fun _ _ => trivial⟩)
  refine Act.follows_bind.mpr (follows_view.mpr ⟨attesting_free rfl, fun signatures _ => ?_,
    fun _ _ => trivial⟩)
  exact attesting_executeOnForeign fun _ => rfl

/-- Signatures: first the threshold and the counter, then the flag. -/
theorem attesting_signAndExecute {bridge : Bridge} {key : Option String} {var flag : String}
    {signature message : Bytes} {stage : Stage} {foreign : PrivateKeySigner → U256 → Action Unit}
    (hdata : data.attestation lib cfg = (validatorOf lib key).map fun validator =>
      ⟨contract_address, validator, .signature bridge message⟩)
    (hforeign : ∀ signer required seen, Act.Follows (attesting lib cfg data) seen
      (foreign signer required) fun _ _ => True) :
    Act.Follows (attesting lib cfg data) []
      (signAndExecute lib cfg bridge key var contract_address signature message flag foreign
        id stage) fun _ _ => True := by
  refine Act.follows_bind.mpr (follows_loadSigner.mpr ⟨fun _ => trivial,
    fun text hkey => ⟨fun signer hparse => ?_, fun _ _ => trivial⟩⟩)
  refine Act.follows_bind.mpr (follows_connect.mpr ⟨attesting_free rfl, fun _ _ => ?_,
    fun _ _ => trivial⟩)
  refine Act.follows_bind.mpr (follows_view.mpr ⟨attesting_free rfl, fun required _ => ?_,
    fun _ _ => trivial⟩)
  simp only
  by_cases hstage : stage = .foreign
  · -- claimed at stage foreign: nothing is attested
    simp [hstage, hforeign]
  · rw [if_pos hstage]
    refine Act.follows_bind.mpr (follows_view.mpr ⟨attesting_free rfl, fun signed _ => ?_,
      fun _ _ => trivial⟩)
    refine Act.follows_ite.mpr ⟨fun _ => by simp [deleteEventLog], fun hbelow => ?_⟩
    refine Act.follows_bind.mpr (follows_view.mpr ⟨attesting_free rfl,
      fun already_signed _ => ?_, fun _ _ => trivial⟩)
    refine Act.follows_ite.mpr ⟨fun _ => by simp [deleteEventLog], fun hfresh => ?_⟩
    refine Act.follows_bind.mpr (Act.follows_attempt.mpr (follows_submitSignature.mpr
      ⟨?_, fun tx _ => ⟨attesting_free rfl, fun receipt _ => ?_, fun _ _ => ?_⟩, fun _ _ => ?_⟩))
    · intro a ha
      obtain rfl := Option.some.inj ha
      refine ⟨?_, ⟨?_, signed, required, BitVec.not_le.mp hbelow, ?_, ?_⟩, rfl⟩
      · rw [hdata, validatorOf_eq ⟨text, hkey, hparse⟩]
        rfl
      · obtain rfl : already_signed = false := Bool.eq_false_iff.mpr hfresh
        simp [attesting, Attestation.flagEvent, Subject.isSignature, Subject.bridge,
          Attestation.hashSender, Attestation.senderPreimage, Attestation.hashMsg,
          Subject.preimage, hashSender]
      · simp [attesting, Attestation.counterEvent, Subject.isSignature, Subject.bridge,
          Attestation.hashMsg, Subject.preimage]
      · simp [attesting, Attestation.thresholdEvent, Subject.bridge]
    · simp [deleteEventLog, updateStage, incrementRetryCount, hforeign]
    · exact Act.follows_ite.mpr ⟨fun _ => by simp [incrementRetryCount], fun h => absurd rfl h⟩
    · exact Act.follows_ite.mpr ⟨fun _ => by simp [incrementRetryCount], fun h => absurd rfl h⟩

theorem attesting_processMessage :
    Act.Follows (attesting lib cfg data) []
      (processMessage lib cfg data.on_chain_calldata data.event_log_id data.stage)
      fun _ _ => True := by
  cases hmsg : data.on_chain_calldata with
  | AmbEth contract_address calldata =>
      refine attesting_affirm (.ambAffirmation calldata.message) rfl rfl ?_ fun _ => rfl
      rw [SenderData.attestation, hmsg]
  | XdaiEth contract_address calldata =>
      refine attesting_affirm (.xdaiAffirmation calldata.recipient calldata.value calldata.nonce)
        rfl rfl ?_ fun _ => rfl
      rw [SenderData.attestation, hmsg]
  | AmbGc contract_address calldata =>
      refine attesting_signAndExecute ?_ fun _ _ _ => attesting_ambForeign
      rw [SenderData.attestation, hmsg]
  | XdaiGc contract_address calldata =>
      refine attesting_signAndExecute ?_ fun _ _ _ => attesting_xdaiForeign
      rw [SenderData.attestation, hmsg]

/-- **A pass attests its own message only, once, and cleared.** -/
theorem attesting_send : Act.Follows (attesting lib cfg data) [] (Job.prog lib cfg (.send data))
    fun _ _ => True := by
  refine Act.follows_bind.mpr (Act.follows_bind.mpr (Act.follows_attempt.mpr
    (attesting_processMessage.mono ?_)))
  rintro seen ((e | m) | a) -
  · simp [incrementRetryCount]
  · trivial
  · trivial

end

end OnChainSender

open OnChainSender

/-! ## The sender on its own -/

/-- A pass over a message. -/
structure Pass where
  config : Config
  data : SenderData
  trace : Trace Calls
  rest : Action (Option Nat)

/-- The sender, one pass at a time, and the home bridge. -/
structure Relay where
  home : Home
  pass : Option Pass

inductive RelayLabel where
  | start (cfg : Config) (data : SenderData)
  | call (event : Event Calls)
  | done
  | killed
  | tick

namespace Relay

/-- The bridge answers RPC calls, and what the database answers is left open. -/
inductive Answers (lib : Externals) (home : Home) : (o : Op) → o.Ans → Home → Prop
  | rpc {r x home'} (h : home.Answers lib r x home') : Answers lib home (.rpc r) x home'
  | db {st x} : Answers lib home (.db st) x home
  | channel {data x} : Answers lib home (.channelSend data) x home

/-- Any message may come next, under any configuration, and the process may be gone at
any moment. -/
inductive Step (lib : Externals) (s : Relay) : RelayLabel → Relay → Prop
  | start {cfg data} (hidle : s.pass = none) :
      Step lib s (.start cfg data)
        { s with pass := some ⟨cfg, data, [], Job.prog lib cfg (.send data)⟩ }
  | call {p o k x home} (hp : s.pass = some p) (hrest : p.rest = Prog.call o k)
      (hans : Answers lib s.home o x home) :
      Step lib s (.call ⟨o, x⟩)
        ⟨home, some { p with trace := p.trace ++ [⟨o, x⟩], rest := k x }⟩
  | done {p r} (hp : s.pass = some p) (hrest : p.rest = Prog.pure r) :
      Step lib s .done { s with pass := none }
  | killed : Step lib s .killed { s with pass := none }
  | tick {home} (h : s.home.Moves home) : Step lib s .tick { s with home }

/-- What this validator has handed over for the message is mined or dropped. -/
def SettledFor (lib : Externals) (s : Relay) : RelayLabel → Prop
  | .start cfg data => ∀ a, data.attestation lib cfg = some a → ∀ tx ∈ s.home.txs,
      tx.attests = some a → tx.fate ≠ .pending
  | _ => True

end Relay

def relay (lib : Externals) : Machine Relay RelayLabel where
  init s := s.home.txs = [] ∧ s.pass = none
  step s l t := s.Step lib l t

/-- The sender, with no message taken up again before its transactions are settled. -/
def settledRelay (lib : Externals) : Machine Relay RelayLabel :=
  (relay lib).guarded fun s l _ => s.SettledFor lib l

/-- Attesting as it is meant to be: for a pair of validator and message with its flag not
set and its counter read below the threshold, and with success at most once. -/
structure Relay.AttestsOnce (lib : Externals) (s : Relay) : Prop where
  fresh : ∀ t row sender call x a, s.Step lib (.call ⟨.rpc (.send row sender call), x⟩) t →
    call.attests sender = some a → s.home.flagged a = false
  below : ∀ t row sender call x a, s.Step lib (.call ⟨.rpc (.send row sender call), x⟩) t →
    call.attests sender = some a → ∃ p signed required, s.pass = some p ∧ signed < required ∧
      a.counterEvent lib signed ∈ p.trace ∧ a.thresholdEvent required ∈ p.trace
  once : ∀ a, s.home.txs.countP (HomeTx.sets a) ≤ 1
  /-- without collisions, the flag that is read is the one of this validator and message -/
  reads : ∀ t a x, s.Step lib (.call (a.flagEvent lib x)) t →
    CollisionFree lib (a :: s.home.txs.filterMap HomeTx.attests) → x = s.home.flagged a

/-! ## What a pass may rely on -/

namespace Relay

variable {lib : Externals} {s t : Relay} {l : RelayLabel} {p : Pass} {a : Attestation}

/-- Until the pass attests, nothing of its kind is under way, and a flag it has read as
not set is not set. -/
structure Clear (lib : Externals) (home : Home) (p : Pass) (a : Attestation) : Prop where
  settled : ∀ tx ∈ home.txs, tx.attests = some a → tx.fate ≠ .pending
  unset : a.flagEvent lib false ∈ p.trace → home.flagged a = false

structure Sound (lib : Externals) (s : Relay) : Prop where
  coherent : ∀ p, s.pass = some p → (Job.prog lib p.config (.send p.data)).Steps p.trace p.rest
  clear : ∀ p a, s.pass = some p → p.data.attestation lib p.config = some a →
    HasAttested p.trace = false → Clear lib s.home p a
  once : ∀ a, s.home.txs.countP (HomeTx.mayAttest a) ≤ 1

/-- Time changes nothing for a pass that has nothing under way. -/
theorem Clear.moves {home home' : Home} (h : Clear lib home p a) (hmoves : home.Moves home') :
    Clear lib home' p a := by
  constructor
  · intro tx' htx' ha' hpending
    obtain ⟨tx, htx, ha, hback, -⟩ := hmoves.back htx'
    exact h.settled tx htx (ha ▸ ha') (hback hpending)
  · intro hread
    by_contra hflag
    obtain ⟨tx', htx', hfate', ha'⟩ := Home.exists_of_flagged (Bool.not_eq_false _ ▸ hflag)
    obtain ⟨tx, htx, ha, -, hfate⟩ := hmoves.back htx'
    rw [ha] at ha'
    rcases hfate with hfate | hpending
    · have hset := Home.flagged_of_mem htx (hfate ▸ hfate') ha'
      cases (h.unset hread).symm.trans hset
    · exact h.settled tx htx ha' hpending

/-- A pass that has read its flag has nothing that attests or may yet attest. -/
theorem Clear.countP_eq_zero {home : Home} (h : Clear lib home p a)
    (hread : a.flagEvent lib false ∈ p.trace) : home.txs.countP (HomeTx.mayAttest a) = 0 := by
  rw [List.countP_eq_zero]
  intro tx htx hmay
  simp only [HomeTx.mayAttest, Bool.and_eq_true, Bool.or_eq_true, beq_iff_eq] at hmay
  obtain ⟨hfate, ha⟩ := hmay
  rcases hfate with hpending | hmined
  · exact h.settled tx htx ha hpending
  · cases (h.unset hread).symm.trans (Home.flagged_of_mem htx hmined ha)

/-- Every call of a pass keeps to the protocol. -/
theorem Sound.allows (h : s.Sound lib) (hp : s.pass = some p) {o : Op}
    {k : o.Ans → Prog Calls (Except (Exit BridgeValidatorError) (Option Nat))}
    (hrest : p.rest = Prog.call o k) : (attesting lib p.config p.data).allows p.trace o := by
  have hfollows : Act.Follows (attesting lib p.config p.data) []
      (Job.prog lib p.config (.send p.data)) fun _ _ => True := attesting_send
  have hleft := Prog.Follows.steps hfollows (h.coherent p hp)
    (Protocol.admitted_of_all _ (fun _ _ _ => trivial) _ _)
  rw [hrest, Protocol.after_eq_append (fun _ _ _ => rfl)] at hleft
  exact hleft.1

/-- Who attests is cleared to. -/
theorem Sound.cleared (h : s.Sound lib) {row : Int} {sender : Address} {call : TxCall}
    {x : Except String Nat} (hstep : s.Step lib (.call ⟨.rpc (.send row sender call), x⟩) t)
    (ha : call.attests sender = some a) :
    ∃ p, s.pass = some p ∧ Cleared lib a p.trace ∧ Clear lib s.home p a := by
  cases hstep with
  | @call p o k x home hp hrest hans =>
      obtain ⟨hown, hcleared, hfirst⟩ := h.allows hp hrest a ha
      exact ⟨p, hp, hcleared, h.clear p a hp hown hfirst⟩

/-! ## Every step keeps it so -/

theorem hasAttested_append {tr : Trace Calls} {e : Event Calls} :
    HasAttested (tr ++ [e]) = false ↔ HasAttested tr = false ∧ e.op.attests = none := by
  simp [HasAttested, Option.isSome_eq_false_iff]

/-- A call that hands nothing over leaves the pass clear. -/
theorem Clear.call {home home' : Home} (h : Clear lib home p a) {o : Op} {x : o.Ans}
    {rest : Action (Option Nat)} (hans : Answers lib home o x home') (hmoves : home.Moves home') :
    Clear lib home' { p with trace := p.trace ++ [⟨o, x⟩], rest } a := by
  refine ⟨(h.moves hmoves).settled, fun hread => ?_⟩
  rcases List.mem_append.mp hread with hread | hread
  · exact (h.moves hmoves).unset hread
  · -- the flag is what the view has just said
    have hevent := (List.mem_singleton.mp hread).symm
    have hunset : home.flagged a = false := by
      by_contra hflag
      have hset : home.flagAt lib a.subject.isSignature a.subject.bridge a.contract
          (a.hashSender lib) = true := Home.flagAt_of_flagged (Bool.not_eq_false _ ▸ hflag)
      cases hans with
      | rpc hans =>
          have hread := hans.flagEvent hevent
          rw [hset] at hread
          cases hread
      | db =>
          unfold Attestation.flagEvent at hevent
          split at hevent <;> cases hevent
      | channel =>
          unfold Attestation.flagEvent at hevent
          split at hevent <;> cases hevent
    have hclear : Clear lib home { p with trace := [a.flagEvent lib false] } a :=
      ⟨h.settled, fun _ => hunset⟩
    exact (hclear.moves hmoves).unset (List.mem_singleton_self _)

/-- What an answer does to the transactions, unless the call attests. -/
theorem Answers.moves {home home' : Home} {o : Op} {x : o.Ans} (h : Answers lib home o x home') :
    home.Moves home' ∨ ∃ row sender call, o = .rpc (.send row sender call) ∧
      home' = home.submit sender call := by
  cases h with
  | rpc h =>
      rcases h.moves with hmoves | ⟨row, sender, call, rfl, heq⟩
      · exact Or.inl hmoves
      · exact Or.inr ⟨row, sender, call, rfl, heq⟩
  | db => exact Or.inl .refl
  | channel => exact Or.inl .refl

/-- One more transaction that attests nothing leaves a pass clear. -/
theorem Clear.submit {home : Home} (h : Clear lib home p a) {sender : Address} {call : TxCall}
    (hcall : call.attests sender = none) : Clear lib (home.submit sender call) p a := by
  constructor
  · intro tx htx ha
    rcases List.mem_append.mp htx with htx | htx
    · exact h.settled tx htx ha
    · rw [List.mem_singleton.mp htx, HomeTx.attests, hcall] at ha
      cases ha
  · intro hread
    have hold : home.txs.any (HomeTx.sets a) = false := h.unset hread
    rw [Home.flagged, Home.submit, List.any_append, hold]
    rfl

/-- At most one transaction for each pair attests or may yet attest. -/
theorem countP_submit {home : Home} {sender : Address} {call : TxCall}
    (honce : ∀ a, home.txs.countP (HomeTx.mayAttest a) ≤ 1)
    (hclear : ∀ a, call.attests sender = some a → home.txs.countP (HomeTx.mayAttest a) = 0)
    (a : Attestation) : (home.submit sender call).txs.countP (HomeTx.mayAttest a) ≤ 1 := by
  rw [Home.submit, List.countP_append, List.countP_singleton]
  by_cases ha : call.attests sender = some a
  · rw [hclear a ha]
    split <;> omega
  · have hnot : HomeTx.mayAttest a ⟨sender, call, .pending⟩ = false := by
      simp [HomeTx.mayAttest, HomeTx.attests, ha]
    rw [hnot, if_neg Bool.false_ne_true]
    exact honce a

/-- A call that is answered leaves the pass clear, until it attests. -/
theorem Clear.answered {home home' : Home} (h : Clear lib home p a) {o : Op} {x : o.Ans}
    {rest : Action (Option Nat)} (hans : Answers lib home o x home')
    (hfree : o.attests = none) :
    Clear lib home' { p with trace := p.trace ++ [⟨o, x⟩], rest } a := by
  rcases hans.moves with hmoves | ⟨row, sender, call, rfl, rfl⟩
  · exact h.call hans hmoves
  · -- handed over, but not to attest: nothing has been read either
    have hsubmit := h.submit hfree
    refine ⟨hsubmit.settled, fun hread => ?_⟩
    rcases List.mem_append.mp hread with hread | hread
    · exact hsubmit.unset hread
    · have hevent := List.mem_singleton.mp hread
      unfold Attestation.flagEvent at hevent
      split at hevent <;> cases hevent

theorem Sound.step (h : s.Sound lib) (hstep : s.Step lib l t) (hsettled : s.SettledFor lib l) :
    t.Sound lib := by
  cases hstep with
  | @start cfg data hidle =>
      refine ⟨?_, ?_, h.once⟩
      · rintro p ⟨⟩
        exact .refl
      · rintro p a ⟨⟩ ha -
        refine ⟨hsettled a ha, ?_⟩
        intro hread
        cases hread
  | @call p o k x home hp hrest hans =>
      have hallow := h.allows hp hrest
      have hcoherent := h.coherent p hp
      rw [hrest] at hcoherent
      refine ⟨?_, ?_, ?_⟩
      · rintro p' ⟨⟩
        exact @Prog.Steps.snoc Calls _ _ _ o k hcoherent x
      · rintro p' a ⟨⟩ ha hfirst
        obtain ⟨hfirst, hfree⟩ := hasAttested_append.mp hfirst
        exact (h.clear p a hp ha hfirst).answered hans hfree
      · intro a
        rcases hans.moves with hmoves | ⟨row, sender, call, rfl, rfl⟩
        · exact (hmoves.countP_le a).trans (h.once a)
        · apply countP_submit h.once
          intro b hb
          obtain ⟨hown, hcleared, hfirst⟩ := hallow b hb
          exact (h.clear p b hp hown hfirst).countP_eq_zero hcleared.unset
  | done _ _ =>
      refine ⟨?_, ?_, h.once⟩
      · rintro p ⟨⟩
      · rintro p a ⟨⟩
  | killed =>
      refine ⟨?_, ?_, h.once⟩
      · rintro p ⟨⟩
      · rintro p a ⟨⟩
  | tick hmoves =>
      refine ⟨h.coherent, ?_, fun a => (hmoves.countP_le a).trans (h.once a)⟩
      intro p a hp ha hfirst
      exact (h.clear p a hp ha hfirst).moves hmoves

theorem Sound.attestsOnce (h : s.Sound lib) : s.AttestsOnce lib := by
  constructor
  · intro t row sender call x a hstep ha
    obtain ⟨p, -, hcleared, hclear⟩ := h.cleared hstep ha
    exact hclear.unset hcleared.unset
  · intro t row sender call x a hstep ha
    obtain ⟨p, hp, hcleared, -⟩ := h.cleared hstep ha
    obtain ⟨signed, required, hlt, hcounter, hthreshold⟩ := hcleared.below
    exact ⟨p, signed, required, hp, hlt, hcounter, hthreshold⟩
  · intro a
    refine le_trans (List.countP_mono_left fun tx _ hsets => ?_) (h.once a)
    simp only [HomeTx.sets, HomeTx.mayAttest, Bool.and_eq_true, Bool.or_eq_true] at hsets ⊢
    exact ⟨Or.inr hsets.1, hsets.2⟩
  · intro t a x hstep hfree
    have hread : x = s.home.flagAt lib a.subject.isSignature a.subject.bridge a.contract
        (a.hashSender lib) := by
      generalize hevent : a.flagEvent lib x = e at hstep
      cases hstep with
      | call hp hrest hans =>
          cases hans with
          | rpc hans => exact hans.flagEvent hevent.symm
          | db =>
              unfold Attestation.flagEvent at hevent
              split at hevent <;> cases hevent
          | channel =>
              unfold Attestation.flagEvent at hevent
              split at hevent <;> cases hevent
    rw [hread]
    cases hflag : s.home.flagged a with
    | true => exact Home.flagAt_of_flagged hflag
    | false =>
        by_contra hset
        have hset := Home.flagged_of_flagAt hfree (Bool.not_eq_false _ ▸ hset)
        rw [hflag] at hset
        cases hset

theorem sound_of_reachable (h : (settledRelay lib).Reachable s) : s.Sound lib := by
  refine h.invariant ?_ ?_
  · rintro s ⟨hnone, hidle⟩
    refine ⟨?_, ?_, fun a => by simp [hnone]⟩
    · intro p hp
      cases hidle.symm.trans hp
    · intro p a hp
      cases hidle.symm.trans hp
  · intro s l t _ hs hstep
    exact hs.step hstep.1 hstep.2

end Relay

/-! ## Passes that run to their end -/

namespace Relay

variable {lib : Externals}

theorem run_calls (cfg : Config) (data : SenderData) {home home' : Home}
    {prog : Action (Option Nat)}
    {tr : List (Entry Calls Home)} {result : Except (Exit BridgeValidatorError) (Option Nat)}
    (h : Prog.Exec (Answers lib) home prog tr result home') (seen : Trace Calls) :
    ∃ ls seen', (settledRelay lib).Run ⟨home, some ⟨cfg, data, seen, prog⟩⟩ ls
      ⟨home', some ⟨cfg, data, seen', Prog.pure result⟩⟩ := by
  induction prog generalizing home tr seen with
  | pure a =>
      obtain ⟨-, rfl, rfl⟩ := h
      exact ⟨[], seen, .nil⟩
  | call o k ih =>
      obtain ⟨x, next, rest, hans, -, h⟩ := h
      obtain ⟨ls, seen', hrun⟩ := ih x h (seen ++ [⟨o, x⟩])
      have hstep : Relay.Step lib ⟨home, some ⟨cfg, data, seen, Prog.call o k⟩⟩ (.call ⟨o, x⟩)
          ⟨next, some ⟨cfg, data, seen ++ [⟨o, x⟩], k x⟩⟩ :=
        @Relay.Step.call lib ⟨home, _⟩ _ o k x next rfl rfl hans
      exact ⟨.call ⟨o, x⟩ :: ls, seen', .cons ⟨hstep, trivial⟩ hrun⟩

/-- A message whose transactions are settled can be attended to, if the calls are
answered as the home bridge does. -/
theorem run_pass (cfg : Config) (data : SenderData) {home : Home}
    {handler : Home → (o : Op) → o.Ans × Home}
    (hsound : ∀ home o, Answers lib home o (handler home o).1 (handler home o).2)
    (hsettled : ∀ tx ∈ home.txs, tx.fate ≠ .pending) :
    ∃ ls, (settledRelay lib).Run ⟨home, none⟩ ls
      ⟨((Job.prog lib cfg (.send data)).exec handler home).2.2, none⟩ := by
  obtain ⟨tr, hexec⟩ := Prog.Exec.of_handler hsound (Job.prog lib cfg (.send data)) home
  obtain ⟨ls, seen, hrun⟩ := run_calls cfg data hexec []
  refine ⟨.start cfg data :: ls ++ [.done], ?_⟩
  refine .snoc (.cons (t := ⟨home, some ⟨cfg, data, [], Job.prog lib cfg (.send data)⟩⟩)
    ⟨?_, ?_⟩ hrun) ⟨?_, trivial⟩
  · exact .start rfl
  · intro a _ tx htx _
    exact hsettled tx htx
  · exact .done rfl rfl

end Relay

/-- **One attestation for each validator and message**, in every run of the sender over
any messages, in which what was handed over for a message is mined or dropped before the
message is taken up again. -/
theorem attests_once_of_settled {lib : Externals} {s : Relay}
    (h : (settledRelay lib).Reachable s) : s.AttestsOnce lib :=
  (Relay.sound_of_reachable h).attestsOnce

namespace Deployment

/-- Two signatures are required. -/
def homeBridge : Home where
  txs := []
  numAffirmationsSigned _ _ _ := 0
  numMessagesSigned _ _ _ := 0
  requiredSignatures _ _ := 2

def mined (home : Home) : Home :=
  { home with txs := home.txs.map fun tx =>
      if tx.fate = .pending then { tx with fate := .mined true } else tx }

/-- The home bridge answers, a receipt comes with everything mined, and the database is
out of order: no row is ever deleted. -/
def attend (home : Home) : (o : Op) → o.Ans × Home
  | .rpc (.connect _) => (.ok (), home)
  | .rpc (.send _ sender call) => (.ok home.txs.length, home.submit sender call)
  | .rpc (.getReceipt tx) =>
      match ((mined home).txs[tx]?).map HomeTx.fate with
      | some (.mined status) =>
          (.ok { transaction_hash := .repeatByte 32 3, status }, mined home)
      | _ => (.error "timeout", home)
  | .rpc (.view call) =>
      match call with
      | .affirmationsSigned bridge contract hashSender =>
          (.ok (home.flagAt externals false bridge contract hashSender), home)
      | .messagesSigned bridge contract hashSender =>
          (.ok (home.flagAt externals true bridge contract hashSender), home)
      | .numAffirmationsSigned bridge contract hashMsg =>
          (.ok (home.numAffirmationsSigned bridge contract hashMsg), home)
      | .numMessagesSigned bridge contract hashMsg =>
          (.ok (home.numMessagesSigned bridge contract hashMsg), home)
      | .requiredSignatures bridge contract =>
          (.ok (home.requiredSignatures bridge contract), home)
      | call => (.ok (views call), home)
  | .rpc r => ((lookups (.repeatByte 32 0xaa) () r).1, home)
  | .channelSend _ => (.ok (), home)
  | .db _ => (.error "database is locked", home)

theorem moves_mined (home : Home) : home.Moves (mined home) := by
  refine List.forall₂_map_right_iff.mpr (List.forall₂_same.mpr fun tx _ => ?_)
  split
  · rename_i hpending
    exact .settled hpending (by simp)
  · exact .same

theorem answers_attend (home : Home) (o : Op) :
    Relay.Answers externals home o (attend home o).1 (attend home o).2 := by
  cases o with
  | db st => exact .db
  | channelSend data => exact .channel
  | rpc r =>
      apply Relay.Answers.rpc
      cases r with
      | send row sender call => exact ⟨rfl, rfl⟩
      | getReceipt tx =>
          simp only [attend]
          split
          · rename_i status hfate
            exact ⟨moves_mined home, hfate⟩
          · exact Home.Moves.refl
      | view call => cases call <;> exact ⟨rfl, by trivial⟩
      | ethGetBlockByNumber url tag => cases tag <;> rfl
      | _ => rfl

/-- One message of the foreign AMB, for the given row. -/
def affirmation (id : Int) : SenderData where
  on_chain_calldata := .AmbEth (.repeatByte 20 0x12) ⟨[1, 2, 3]⟩
  event_log_id := id
  stage := .home

end Deployment

open Deployment in
/-- The message is attested for one row, and then taken up again for another. -/
theorem attests_once_of_settled_attested :
    ∃ s : Relay, s.home.flagged ⟨.repeatByte 20 0x12, .repeatByte 20 1, .ambAffirmation [1, 2, 3]⟩
      = true ∧ (s.pass.map Pass.data) = some (affirmation 2) ∧ s.AttestsOnce externals := by
  obtain ⟨ls, hrun⟩ := Relay.run_pass config (affirmation 1) answers_attend
    (show ∀ tx ∈ homeBridge.txs, tx.fate ≠ .pending from nofun)
  generalize hhome : ((Job.prog externals config (.send (affirmation 1))).exec attend
    homeBridge).2.2 = home at hrun
  have hset : home.flagged ⟨.repeatByte 20 0x12, .repeatByte 20 1, .ambAffirmation [1, 2, 3]⟩ =
      true := by
    rw [← hhome]
    decide +kernel
  have hsettled : home.txs.all (fun tx => tx.fate != .pending) = true := by
    rw [← hhome]
    decide +kernel
  have hreach : (settledRelay externals).Reachable ⟨home, none⟩ :=
    ⟨⟨homeBridge, none⟩, ls, ⟨rfl, rfl⟩, hrun⟩
  refine ⟨_, hset, rfl, attests_once_of_settled (hreach.step
    (l := .start config (affirmation 2)) ⟨.start rfl, ?_⟩)⟩
  intro a _ tx htx _
  simpa using List.all_eq_true.mp hsettled tx htx

/-! ## The sender of the combined system -/

namespace Sys

variable {lib : Externals} {s t : Sys (World.home lib)} {l : Label}

/-- What the combined system is to its sender. -/
def relay (s : Sys (World.home lib)) : Relay where
  home := s.shared.world
  pass := (s.running .on_chain_sender).bind fun r =>
    match r.job with
    | .send data => some ⟨s.config, data, r.trace, r.rest⟩
    | _ => none

theorem relay_congr (hworld : t.shared.world = s.shared.world) (hcfg : t.config = s.config)
    (hrunning : t.running .on_chain_sender = s.running .on_chain_sender) : t.relay = s.relay := by
  unfold relay
  rw [hworld, hcfg, hrunning]

/-- Somebody else's call hands nothing over. -/
theorem moves_of_others {v : Service} {r : Running} {o : Op}
    {k : o.Ans → Prog Calls (Except (Exit BridgeValidatorError) (Option Nat))} {x : o.Ans}
    {sh : Shared (World.home lib)} (hs : s.Coherent lib) (hr : s.running v = some r)
    (hrest : r.rest = Prog.call o k) (hans : s.shared.Answers o x sh)
    (hv : v ≠ .on_chain_sender) : Home.Moves s.shared.world sh.world := by
  cases hans with
  | rpc h =>
      rcases Home.Answers.moves h with hmoves | ⟨row, sender, call, rfl, -⟩
      · exact hmoves
      · exact absurd (hs.sender_allows hr hrest rfl).1 hv
  | _ => exact Home.Moves.refl

theorem relay_advance_of_ne {v : Service} {r : Running} {e : Event Calls}
    {rest : Action (Option Nat)} {sh : Shared (World.home lib)} (hv : v ≠ .on_chain_sender) :
    (s.advance v r e rest sh).relay = { s.relay with home := sh.world } := by
  unfold relay
  rw [running_advance (Ne.symm hv)]
  rfl

theorem relay_advance {r : Running} {data : SenderData} {e : Event Calls}
    {rest : Action (Option Nat)} {sh : Shared (World.home lib)} (hjob : r.job = .send data) :
    (s.advance .on_chain_sender r e rest sh).relay =
      ⟨sh.world, some ⟨s.config, data, r.trace ++ [e], rest⟩⟩ := by
  unfold relay
  rw [running_advance_self, Option.bind_some, hjob]
  rfl

/-- The sender's own call. -/
theorem relay_call {r : Running} {o : Op} {x : o.Ans}
    {k : o.Ans → Prog Calls (Except (Exit BridgeValidatorError) (Option Nat))}
    {sh : Shared (World.home lib)} (hs : s.Coherent lib) (hr : s.running .on_chain_sender = some r)
    (hrest : r.rest = Prog.call o k) (hans : s.shared.Answers o x sh) :
    s.relay.Step lib (.call ⟨o, x⟩) (s.advance .on_chain_sender r ⟨o, x⟩ (k x) sh).relay := by
  have hservice := (hs _ r hr).1
  cases hjob : r.job with
  | send data =>
      have hp : s.relay.pass = some ⟨s.config, data, r.trace, r.rest⟩ := by
        simp [Sys.relay, hr, hjob]
      have hans' : Relay.Answers lib s.relay.home o x sh.world := by
        cases hans with
        | rpc h => exact .rpc h
        | db _ => exact .db
        | sent _ => exact .channel
        | closed => exact .channel
      exact Eq.subst (motive := fun next => Relay.Step lib s.relay (.call ⟨o, x⟩) next)
        (relay_advance hjob).symm (Relay.Step.call hp hrest hans')
  | _ =>
      rw [hjob] at hservice
      cases hservice

/-- **Every step of the system is one of its sender, or none.** -/
theorem Step.relay (h : s.Step lib l t) (hs : s.Coherent lib) :
    t.relay = s.relay ∨ ∃ l', s.relay.Step lib l' t.relay ∧
      ∀ cfg data, l' = .start cfg data → l = .start (.send data) ∧ s.config = cfg := by
  cases h with
  | index _ | process _ _ | check _ _ =>
      exact Or.inl (relay_congr rfl rfl (running_begin (by simp [Job.service])))
  | @recv data rest hidle hch =>
      refine Or.inr ⟨.start s.config data, ?_, ?_⟩
      · have hnone : s.relay.pass = none := by
          show (s.running .on_chain_sender).bind _ = none
          rw [hidle.1]
          rfl
        have hstart : (s.popChannel.begin lib (.send data)).relay =
            { s.relay with
              pass := some ⟨s.config, data, [], Job.prog lib s.config (.send data)⟩ } := by
          simp [Sys.relay, Sys.begin, Job.service, popChannel]
        rw [hstart]
        exact .start hnone
      · rintro cfg data' ⟨⟩
        exact ⟨rfl, rfl⟩
  | @call v r o k x sh hr hrest hans =>
      by_cases hv : v = .on_chain_sender
      · subst hv
        refine Or.inr ⟨.call ⟨o, x⟩, relay_call hs hr hrest hans, ?_⟩
        rintro cfg data ⟨⟩
      · refine Or.inr ⟨.tick, ?_, ?_⟩
        · exact Eq.subst (motive := fun next => Relay.Step lib s.relay .tick next)
            (relay_advance_of_ne hv).symm (Relay.Step.tick (moves_of_others hs hr hrest hans hv))
        · rintro cfg data ⟨⟩
  | @finish v r result hr hrest =>
      by_cases hv : v = .on_chain_sender
      · subst hv
        refine Or.inr ⟨.killed, ?_, ?_⟩
        · have hover : (s.done .on_chain_sender r.job result).relay =
              { s.relay with pass := none } := by
            simp [Sys.relay, Sys.done]
          rw [hover]
          exact .killed
        · rintro cfg data ⟨⟩
      · exact Or.inl (relay_congr rfl rfl (running_done (Ne.symm hv)))
  | panic _ _ =>
      refine Or.inr ⟨.killed, ?_, ?_⟩
      · exact Relay.Step.killed
      · rintro cfg data ⟨⟩
  | exit _ _ => exact Or.inl rfl
  | signal => exact Or.inl rfl
  | tick hw =>
      refine Or.inr ⟨.tick, ?_, ?_⟩
      · exact Relay.Step.tick hw
      · rintro cfg data ⟨⟩
  | restart =>
      refine Or.inr ⟨.killed, ?_, ?_⟩
      · exact Relay.Step.killed
      · rintro cfg data ⟨⟩

end Sys

/-- The combined system, with no message taken up again before its transactions are
settled. -/
def settledSystem (lib : Externals) : Machine (Sys (World.home lib)) Label :=
  (system lib (World.home lib)).guarded fun s l _ => ∀ data, l = .start (.send data) →
    s.relay.SettledFor lib (.start s.config data)

/-- **The sender of the combined system is such a sender.** -/
theorem relay_of_reachable {lib : Externals} {s : Sys (World.home lib)}
    (h : (settledSystem lib).Reachable s) : (settledRelay lib).Reachable s.relay := by
  apply h.simulates
  · rintro s ⟨cfg, home, hnone, rfl⟩
    exact ⟨hnone, rfl⟩
  · intro s l t hreach hstep
    rcases hstep.1.relay (coherent_of_reachable hreach.of_guarded) with hsame | ⟨l', hstep', hl'⟩
    · exact Or.inl hsame
    · refine Or.inr ⟨l', hstep', ?_⟩
      cases l' with
      | start cfg data =>
          obtain ⟨rfl, rfl⟩ := hl' cfg data rfl
          exact hstep.2 data rfl
      | _ => trivial

/-- So it attests once, whatever the other services do meanwhile. -/
theorem sender_attests_once {lib : Externals} {s : Sys (World.home lib)}
    (h : (settledSystem lib).Reachable s) : s.relay.AttestsOnce lib :=
  (Relay.sound_of_reachable (relay_of_reachable h)).attestsOnce

end BridgeValidator
