import BridgeValidator.System

/-!
# What each service may do

One protocol for each service. It lists the calls the service makes, and for
the two that work on claimed rows it keeps the ghost state the ownership
argument needs: the row a processor has claimed and not yet handed over, and
whether the sender has settled the row it works on.
-/

namespace BridgeValidator

open Interaction

/-- The contract kind the calldata is for, as the row names it. -/
def OnChainCallData.bridgeMode : OnChainCallData → BridgeMode
  | .AmbEth .. => .AMB_ETH
  | .AmbGc .. => .AMB_GC
  | .XdaiEth .. => .XDAI_ETH
  | .XdaiGc .. => .XDAI_GC

/-! ## Message processor -/

/-- `data` is what a processor may make of the row it has claimed. -/
structure EventLogRow.HandedOverAs (row : EventLogRow) (data : SenderData) : Prop where
  id : data.event_log_id = row.id
  stage : data.stage = row.stage.getD .home
  mode : data.on_chain_calldata.bridgeMode = row.bridge_mode

namespace MessageProcessor

/-- The row claimed and not yet handed over. -/
def heldAfter (held : Option EventLogRow) : (o : Op) → o.Ans → Option EventLogRow
  | .db (.claim _), .ok row => row
  | .channelSend _, .ok () => none
  | _, _ => held

/-- Claim with empty hands, hand over what is held, nothing else. -/
def protocol (cfg : Config) : Protocol Calls (Option EventLogRow) where
  allows held
    | .db (.claim max_retry_count) => held = none ∧ max_retry_count = cfg.retryCeiling
    | .channelSend data => ∃ row, held = some row ∧ row.HandedOverAs data
    | _ => False
  admits _ _ _ := True
  next := heldAfter

variable {lib : Externals} {cfg : Config} {row : EventLogRow}

theorem follows_handOver {calldata : OnChainCallData}
    (h : calldata.bridgeMode = row.bridge_mode) :
    Act.Follows (protocol cfg) (some row) (handOver row calldata) fun _ _ => True := by
  simp only [handOver, Act.follows_bind, follows_await]
  refine ⟨⟨row, rfl, rfl, rfl, h⟩, fun _ _ => ?_⟩
  simp [follows_orErr]

theorem follows_processMessageOrSkip :
    Act.Follows (protocol cfg) (some row) (processMessageOrSkip lib cfg row)
      fun _ _ => True := by
  simp only [processMessageOrSkip, Act.follows_bind, follows_orErr, implies_true, and_true]
  intro log _
  split <;> rename_i hmode <;>
    simp only [Act.follows_bind, follows_orErr, Act.follows_orThrow, follows_loadSigner,
      Act.follows_pure, implies_true, and_true, true_and]
  · intro _ _
    exact follows_handOver hmode.symm
  · intro _ _ _ _ _ _ _ _
    exact follows_handOver hmode.symm
  · intro _ _
    exact follows_handOver hmode.symm
  · intro _ _ _ _ _ _ _ _ _ _ _ _
    exact follows_handOver hmode.symm

theorem follows_iteration :
    Act.Follows (protocol cfg) none (iteration lib cfg) fun _ _ => True := by
  simp only [iteration, readFromDb, Act.follows_bind, Act.follows_attempt, follows_sql]
  refine ⟨⟨rfl, rfl⟩, ?_, fun _ _ => trivial⟩
  rintro (_ | row) -
  · trivial
  · refine Act.follows_bind.mpr (Act.follows_attempt.mpr (follows_processMessageOrSkip.mono ?_))
    rintro _ ((_ | _) | _) - <;> trivial

end MessageProcessor

/-! ## On-chain sender -/

namespace OnChainSender

/-- Has the row been deleted or released? -/
def settledAfter (settled : Bool) : (o : Op) → o.Ans → Bool
  | .db (.deleteEventLog _), .ok () => true
  | .db (.incrementRetryCount _), .ok () => true
  | _, _ => settled

/-- The sender sends transactions for and writes to no row but its own, and to
that one only until it is settled. -/
def protocol (id : Int) : Protocol Calls Bool where
  allows settled
    | .rpc (.send id' ..) => id' = id
    | .rpc _ => True
    | .db (.updateStage stage id') => settled = false ∧ id' = id ∧ stage = .foreign
    | .db (.incrementRetryCount id') => settled = false ∧ id' = id
    | .db (.deleteEventLog id') => settled = false ∧ id' = id
    | _ => False
  admits _ _ _ := True
  next := settledAfter

section

variable {id id' : Int} {settled : Bool}

@[simp] theorem protocol_send {sender : Address} {call : TxCall} :
    (protocol id).allows settled (.rpc (.send id' sender call)) ↔ id' = id := Iff.rfl

@[simp] theorem protocol_view {call : ViewCall} :
    (protocol id).allows settled (.rpc (.view call)) ↔ True := Iff.rfl

@[simp] theorem protocol_connect {url : String} :
    (protocol id).allows settled (.rpc (.connect url)) ↔ True := Iff.rfl

@[simp] theorem protocol_getReceipt {tx : Nat} :
    (protocol id).allows settled (.rpc (.getReceipt tx)) ↔ True := Iff.rfl

@[simp] theorem protocol_updateStage {stage : Stage} :
    (protocol id).allows settled (.db (.updateStage stage id')) ↔
      settled = false ∧ id' = id ∧ stage = .foreign := Iff.rfl

@[simp] theorem protocol_incrementRetryCount :
    (protocol id).allows settled (.db (.incrementRetryCount id')) ↔
      settled = false ∧ id' = id := Iff.rfl

@[simp] theorem protocol_deleteEventLog :
    (protocol id).allows settled (.db (.deleteEventLog id')) ↔
      settled = false ∧ id' = id := Iff.rfl

@[simp] theorem protocol_admits {o : Op} {x : o.Ans} :
    (protocol id).admits settled o x ↔ True := Iff.rfl

@[simp] theorem protocol_next {o : Op} {x : o.Ans} :
    (protocol id).next settled o x = settledAfter settled o x := rfl

end

/-- An error comes out only while the row is not settled. -/
def ErrorUnsettled {α : Type} (settled : Bool) : Except (Exit BridgeValidatorError) α → Prop
  | .error (.error _) => settled = false
  | _ => True

section

variable {lib : Externals} {cfg : Config} {id : Int}

attribute [local simp] Act.follows_bind Act.follows_pure Act.follows_panic Act.follows_ite
  Act.follows_orThrow Act.follows_attempt follows_await follows_sql follows_view
  follows_connect follows_orErr follows_loadSigner forall_except settledAfter ErrorUnsettled

theorem follows_deleteEventLog :
    Act.Follows (protocol id) false (deleteEventLog id) ErrorUnsettled := by
  simp [deleteEventLog]

theorem follows_incrementRetryCount :
    Act.Follows (protocol id) false (incrementRetryCount id) ErrorUnsettled := by
  simp [incrementRetryCount]

theorem follows_sendThenDelete {signer : PrivateKeySigner} {call : TxCall} :
    Act.Follows (protocol id) false (sendThenDelete lib signer call id) ErrorUnsettled := by
  simp [sendThenDelete, follows_deleteEventLog, follows_incrementRetryCount]

theorem follows_affirm {bridge : Bridge} {key : Option String} {var : String}
    {contract_address : Address} {hash_msg : B256} {call : TxCall} :
    Act.Follows (protocol id) false
      (affirm lib cfg bridge key var contract_address hash_msg call id) ErrorUnsettled := by
  simp [affirm, deleteEventLog, follows_sendThenDelete]

theorem follows_executeOnForeign {signer : PrivateKeySigner} {required : U256}
    {signatures : Bytes} {call : TxCall} :
    Act.Follows (protocol id) false
      (executeOnForeign lib cfg signer required signatures call id) ErrorUnsettled := by
  refine Act.follows_bind.mpr (follows_expectedSignaturesLen (fun expected => ?_) fun _ => trivial)
  refine Act.follows_ite.mpr ⟨fun _ => ?_, fun _ => ?_⟩
  · exact Act.follows_bind.mpr (follows_connect.mpr ⟨trivial, fun _ _ => follows_sendThenDelete,
      fun _ _ => rfl⟩)
  · exact Act.follows_bind.mpr (follows_expectedSignaturesLen
      (fun _ => follows_deleteEventLog) fun _ => trivial)

theorem follows_signAndExecute {bridge : Bridge} {key : Option String} {var : String}
    {contract_address : Address} {signature message : Bytes} {flag : String}
    {foreign : PrivateKeySigner → U256 → Action Unit} {stage : Stage}
    (hforeign : ∀ signer required,
      Act.Follows (protocol id) false (foreign signer required) ErrorUnsettled) :
    Act.Follows (protocol id) false
      (signAndExecute lib cfg bridge key var contract_address signature message flag foreign id
        stage) ErrorUnsettled := by
  refine Act.follows_bind.mpr (follows_loadSigner.mpr ⟨fun _ => rfl,
    fun text _ => ⟨fun signer _ => ?_, fun _ _ => rfl⟩⟩)
  refine Act.follows_bind.mpr (follows_connect.mpr ⟨trivial, fun _ _ => ?_, fun _ _ => rfl⟩)
  refine Act.follows_bind.mpr (follows_view.mpr ⟨trivial, fun required _ => ?_, fun _ _ => rfl⟩)
  have hlast : Act.Follows (protocol id) false
      (if flag = "true" then foreign signer required else pure ()) ErrorUnsettled :=
    Act.follows_ite.mpr ⟨fun _ => hforeign signer required, fun _ => trivial⟩
  simp only
  by_cases hstage : stage = .foreign
  · rw [if_neg (not_not.mpr hstage)]
    exact hlast
  · rw [if_pos hstage]
    refine Act.follows_bind.mpr (follows_view.mpr ⟨trivial, fun signed _ => ?_, fun _ _ => rfl⟩)
    refine Act.follows_ite.mpr ⟨fun _ => by simp [deleteEventLog], fun _ => ?_⟩
    refine Act.follows_bind.mpr (follows_view.mpr ⟨trivial, fun already_signed _ => ?_,
      fun _ _ => rfl⟩)
    refine Act.follows_ite.mpr ⟨fun _ => by simp [deleteEventLog], fun _ => ?_⟩
    refine Act.follows_bind.mpr (Act.follows_attempt.mpr (follows_submitSignature.mpr
      ⟨rfl, fun tx _ => ⟨trivial, fun receipt _ => ?_, fun _ _ => ?_⟩, fun _ _ => ?_⟩))
    · refine Act.follows_ite.mpr ⟨fun herr => Bool.noConfusion herr, fun _ => ?_⟩
      refine Act.follows_ite.mpr ⟨fun _ => by simp [deleteEventLog], fun _ => ?_⟩
      exact Act.follows_bind.mpr (follows_sql.mpr ⟨⟨rfl, rfl, rfl⟩, fun _ _ => hlast,
        fun _ _ => rfl⟩)
    · exact Act.follows_ite.mpr ⟨fun _ => by simp [incrementRetryCount], fun h => absurd rfl h⟩
    · exact Act.follows_ite.mpr ⟨fun _ => by simp [incrementRetryCount], fun h => absurd rfl h⟩

theorem follows_ambForeign {message : Bytes} {signer : PrivateKeySigner} {required : U256} :
    Act.Follows (protocol id) false (ambForeign lib cfg message id signer required)
      ErrorUnsettled := by
  simp [ambForeign, follows_executeOnForeign]

theorem follows_xdaiForeign {message : Bytes} {signer : PrivateKeySigner} {required : U256} :
    Act.Follows (protocol id) false (xdaiForeign lib cfg message id signer required)
      ErrorUnsettled := by
  simp [xdaiForeign, follows_executeOnForeign]

theorem follows_processMessage {msg : OnChainCallData} {stage : Stage} :
    Act.Follows (protocol id) false (processMessage lib cfg msg id stage) ErrorUnsettled := by
  cases msg with
  | AmbEth => exact follows_affirm
  | AmbGc => exact follows_signAndExecute fun _ _ => follows_ambForeign
  | XdaiEth => exact follows_affirm
  | XdaiGc => exact follows_signAndExecute fun _ _ => follows_xdaiForeign

theorem follows_handle {data : SenderData} :
    Act.Follows (protocol data.event_log_id) false (handle lib cfg data) fun _ _ => True := by
  refine Act.follows_bind.mpr (Act.follows_attempt.mpr (follows_processMessage.mono ?_))
  rintro settled ((e | m) | a) h
  · -- the release after an error: the row is not settled yet
    obtain rfl : settled = false := h
    simp [incrementRetryCount]
  · trivial
  · trivial

end

end OnChainSender

/-! ## Event indexer -/

/-- `P` lets lookups at these endpoints through and keeps no record of them. -/
structure IgnoresLookupsAt {σ : Type} (P : Protocol Calls σ) (bc_rpc : Option String)
    (el_rpcs : List String) : Prop where
  beacon : ∀ g url, bc_rpc = some url → P.allows g (.rpc (.beaconFinalized url)) ∧
    ∀ x, P.next g (.rpc (.beaconFinalized url)) x = g
  el : ∀ g url tag, url ∈ el_rpcs → P.allows g (.rpc (.ethGetBlockByNumber url tag)) ∧
    ∀ x, P.next g (.rpc (.ethGetBlockByNumber url tag)) x = g

theorem IgnoresLookupsAt.tail {σ : Type} {P : Protocol Calls σ} {bc_rpc : Option String}
    {el_rpc : String} {rest : List String} (h : IgnoresLookupsAt P bc_rpc (el_rpc :: rest)) :
    IgnoresLookupsAt P bc_rpc rest where
  beacon := h.beacon
  el g url tag hurl := h.el g url tag (List.mem_cons_of_mem _ hurl)

/-- `P` lets block lookups through and keeps no record of them. -/
structure IgnoresLookups {σ : Type} (P : Protocol Calls σ) : Prop where
  beacon : ∀ g url, P.allows g (.rpc (.beaconFinalized url)) ∧
    ∀ x, P.next g (.rpc (.beaconFinalized url)) x = g
  el : ∀ g url tag, P.allows g (.rpc (.ethGetBlockByNumber url tag)) ∧
    ∀ x, P.next g (.rpc (.ethGetBlockByNumber url tag)) x = g

theorem IgnoresLookups.at {σ : Type} {P : Protocol Calls σ} (h : IgnoresLookups P)
    (bc_rpc : Option String) (el_rpcs : List String) : IgnoresLookupsAt P bc_rpc el_rpcs where
  beacon g url _ := h.beacon g url
  el g url tag _ := h.el g url tag

/-- The ghost state is still `g`, and nothing unwound. -/
def Quiet {σ α : Type} (g : σ) (g' : σ) : Except (Exit BridgeValidatorError) α → Prop
  | .error (.panic _) => False
  | _ => g' = g

section

variable {σ : Type} {P : Protocol Calls σ} {g : σ} {bc_rpc : Option String}
  {el_rpcs : List String}

theorem follows_finalizedFromElRpcs (hP : IgnoresLookupsAt P bc_rpc el_rpcs) :
    Act.Follows P g (finalizedFromElRpcs el_rpcs) (Quiet g) := by
  induction el_rpcs with
  | nil => rfl
  | cons el_rpc rest ih =>
      have hhead := hP.el g el_rpc .finalized List.mem_cons_self
      simp only [finalizedFromElRpcs, getFinalizedBlockFromEl, Act.follows_bind,
        Act.follows_attempt, follows_await, Act.follows_orThrow]
      refine ⟨hhead.1, fun x _ => ?_⟩
      rw [hhead.2]
      exact ⟨fun _ _ => rfl, fun _ _ => ih hP.tail⟩

theorem follows_getFinalizedBlockNumber (hP : IgnoresLookupsAt P bc_rpc el_rpcs) :
    Act.Follows P g (getFinalizedBlockNumber bc_rpc el_rpcs) (Quiet g) := by
  cases bc_rpc with
  | none => exact follows_finalizedFromElRpcs hP
  | some bc_rpc =>
      have hhead := hP.beacon g bc_rpc rfl
      simp only [getFinalizedBlockNumber, getFinalizedBlockFromBeacon, Act.follows_bind,
        Act.follows_attempt, follows_await, Act.follows_orThrow]
      refine ⟨hhead.1, fun x _ => ?_⟩
      rw [hhead.2]
      exact ⟨fun _ _ => rfl, fun _ _ => follows_finalizedFromElRpcs hP⟩

theorem follows_getSafeBlockNumber (hP : IgnoresLookupsAt P bc_rpc el_rpcs) :
    Act.Follows P g (getSafeBlockNumber el_rpcs) (Quiet g) := by
  unfold getSafeBlockNumber
  generalize false = saw_legitimate_empty
  induction el_rpcs generalizing saw_legitimate_empty with
  | nil => cases saw_legitimate_empty <;> rfl
  | cons el_rpc rest ih =>
      have hhead := hP.el g el_rpc .safe List.mem_cons_self
      simp only [safeFromElRpcs, probeSafeBlock, Act.follows_bind, follows_await]
      refine ⟨hhead.1, fun x _ => ?_⟩
      rw [hhead.2]
      cases readSafeProbe x with
      | Block n => rfl
      | Empty => exact ih hP.tail true
      | Unsupported => exact ih hP.tail saw_legitimate_empty
      | Unreachable => exact ih hP.tail saw_legitimate_empty

theorem follows_resolveUpperBound {ix : EventIndexer}
    (hP : IgnoresLookupsAt P ix.finalityRpcs.1 ix.finalityRpcs.2) :
    Act.Follows P g ix.resolveUpperBound (Quiet g) := by
  unfold EventIndexer.resolveUpperBound
  split
  · refine Act.follows_bind.mpr (Act.follows_attempt.mpr
      ((follows_getSafeBlockNumber hP).mono ?_))
    rintro g' ((e | m) | (_ | safe_block)) h
    · obtain rfl : g' = g := h
      exact follows_getFinalizedBlockNumber hP
    · exact h.elim
    · obtain rfl : g' = g := h
      exact follows_getFinalizedBlockNumber hP
    · exact h
  · exact follows_getFinalizedBlockNumber hP

end

namespace EventIndexer

/-- No transactions, logs of its own contract only, and every INSERT is of a row
made from a log; `good` is what is known of the logs that are fetched. -/
def protocol (ix : EventIndexer) (good : RpcLog → Prop) : Protocol Calls Unit where
  allows _
    | .rpc (.send ..) => False
    | .rpc (.getLogs chain filter) => chain = ix.provider ∧
        filter.address = ix.contract_address ∧ filter.event = ix.event_name
    | .rpc _ => True
    | .db (.insertEventLog row) => ∃ log log_index topic_key log_json, good log ∧
        row = ix.eventLogOf log log_index topic_key log_json
    | _ => False
  admits _
    | .rpc (.getLogs ..), .ok logs => ∀ log ∈ logs, good log
    | _, _ => True
  next _ _ _ := ()

variable {lib : Externals} {ix : EventIndexer} {good : RpcLog → Prop}

theorem protocol_admits_anything (o : Op) (x : o.Ans) :
    (ix.protocol fun _ => True).admits () o x := by
  cases o with
  | rpc r =>
      cases r with
      | getLogs chain filter =>
          cases x with
          | ok logs => exact fun _ _ => trivial
          | error e => trivial
      | _ => trivial
  | _ => trivial

theorem protocol_ignoresLookups : IgnoresLookups (ix.protocol good) where
  beacon _ _ := ⟨trivial, fun _ => rfl⟩
  el _ _ _ := ⟨trivial, fun _ => rfl⟩

/-- What is called to store logs: an INSERT of the row made from each that has an index, a
topic and a JSON form. -/
theorem inserts_storeLogs {σ : Type} {P : Protocol Calls σ} {g : σ} (logs : List RpcLog)
    (hinsert : ∀ log ∈ logs, ∀ log_index topic_key log_json, log.log_index = some log_index →
      log.topics.head? = some topic_key → lib.toValue log = .ok log_json →
      P.allows g (.db (.insertEventLog (ix.eventLogOf log log_index topic_key log_json))))
    (hnext : ∀ row x, P.next g (.db (.insertEventLog row)) x = g) :
    Act.Follows P g (ix.storeLogs lib logs) (Quiet g) := by
  induction logs with
  | nil => rfl
  | cons log rest ih =>
      have hrest := ih fun log' hlog' => hinsert log' (List.mem_cons_of_mem _ hlog')
      apply Act.follows_bind.mpr
      unfold storeLog
      cases hindex : log.log_index with
      | none => exact hrest
      | some log_index =>
          cases htopic : log.topics.head? with
          | none => exact hrest
          | some topic_key =>
              refine Act.follows_bind.mpr (follows_orErr.mpr ⟨fun log_json hjson => ?_,
                fun _ _ => rfl⟩)
              refine Act.follows_bind.mpr (follows_await.mpr
                ⟨hinsert log List.mem_cons_self _ _ _ hindex htopic hjson, fun x _ => ?_⟩)
              -- the INSERT may have failed; the next log is stored all the same
              rw [hnext]
              exact hrest

theorem follows_storeLogs (logs : List RpcLog) (hgood : ∀ log ∈ logs, good log) :
    Act.Follows (ix.protocol good) () (ix.storeLogs lib logs) fun _ _ => True := by
  apply (inserts_storeLogs logs ?_ fun _ _ => rfl).mono fun _ _ _ => trivial
  intro log hlog log_index topic_key log_json _ _ _
  exact ⟨log, log_index, topic_key, log_json, hgood log hlog, rfl⟩

theorem follows_indexBlockRange (c : Chunk) :
    Act.Follows (ix.protocol good) () (ix.indexBlockRange lib c) fun _ _ => True := by
  refine Act.follows_bind.mpr (follows_await.mpr ⟨⟨rfl, rfl, rfl⟩, ?_⟩)
  rintro (e | logs) hgood
  · trivial
  · refine Act.follows_bind.mpr (follows_orErr.mpr ⟨?_, fun e he => by cases he⟩)
    rintro _ ⟨⟩
    exact follows_storeLogs logs hgood

/-- A protocol for `poll_events` that asks for nothing. -/
def anyChunk : Protocol ChunkCalls Unit where
  allows _ _ := True
  admits _ _ _ := True
  next _ _ _ := ()

theorem follows_anyChunk {α : Type} (p : Prog ChunkCalls α) :
    p.Follows anyChunk (fun _ _ => True) () :=
  Prog.follows_of_allows (fun _ _ => trivial) p

theorem follows_pollAndIndex (last_processed_block upper_bound_block : Nat) :
    Act.Follows (ix.protocol good) ()
      (ix.pollAndIndex lib last_processed_block upper_bound_block) fun _ _ => True := by
  refine Prog.follows_interp (R := fun _ _ => True) (fun t g c _ _ => ?_) (fun _ _ _ _ h => h)
    (follows_anyChunk _) trivial
  exact (follows_indexBlockRange c).mono fun _ _ _ => ⟨trivial, trivial⟩

theorem follows_cycle (last_processed_block : Nat) :
    Act.Follows (ix.protocol good) () (ix.cycle lib last_processed_block) fun _ _ => True := by
  refine Act.follows_bind.mpr (Act.follows_attempt.mpr
    ((follows_resolveUpperBound (protocol_ignoresLookups.at _ _)).mono ?_))
  rintro _ ((e | m) | upper_bound_block) h
  · trivial
  · trivial
  · refine Act.follows_bind.mpr (Act.follows_attempt.mpr ((follows_pollAndIndex _ _).mono ?_))
    rintro _ ((_ | _) | _) - <;> trivial

end EventIndexer

/-! ## FCR checker -/

namespace FcrChecker

/-- `told url n h`: asked for block `n`, the node behind `url` may answer `h`. -/
abbrev Hearsay : Type := String → Int → String → Prop

/-- Nothing is known of the nodes. -/
def anything : Hearsay := fun _ _ _ => True

/-- A provider of the chain has named a hash for the block, and it is, or is
not, the stored one. -/
def Grounds (cfg : Config) (told : Hearsay) (modes : List BridgeMode) (block_number : Int)
    (stored_block_hash : String) (same : Bool) : Prop :=
  ∃ chain el_rpcs url canonical, (chain, el_rpcs) ∈ cfg.fcrChains ∧ modes = bridgeModes chain ∧
    url ∈ el_rpcs ∧ told url block_number canonical ∧
    eqIgnoreAsciiCase canonical stored_block_hash = same

/-- The statements of the checker: none of them touches a column the other
services read, and the two that change a status have grounds. -/
def protocol (cfg : Config) (told : Hearsay) : Protocol Calls Unit where
  allows _
    | .rpc (.send ..) => False
    | .rpc _ => True
    | .db st => match st with
      | .markConfirmed modes n h => Grounds cfg told modes n h true
      | .markReverted modes n h => Grounds cfg told modes n h false
      | .countPending _ | .selectPendingBlocks .. | .countUnverifiable .. | .begin
      | .selectAffected .. | .insertFalsePositive _ | .commit | .rollback => True
      | _ => False
    | .channelSend _ => False
  admits _
    | .rpc (.ethGetBlockByNumber url (.number n)), x =>
        ∀ h, readHashAnswer x = .hash h → told url n h
    | _, _ => True
  next _ _ _ := ()

variable {cfg : Config} {told : Hearsay} {chain : Chain} {el_rpcs : List String}

theorem protocol_admits_anything (o : Op) (x : o.Ans) : (protocol cfg anything).admits () o x := by
  cases o with
  | rpc r =>
      cases r with
      | ethGetBlockByNumber url tag =>
          cases tag with
          | number n => exact fun _ _ => trivial
          | _ => trivial
      | _ => trivial
  | _ => trivial

theorem protocol_ignoresLookups : IgnoresLookups (protocol cfg told) where
  beacon _ _ := ⟨trivial, fun _ => rfl⟩
  el _ _ _ := ⟨trivial, fun _ => rfl⟩

/-- A verdict other than `Unavailable` has grounds. -/
def Verdict (cfg : Config) (told : Hearsay) (chain : Chain) (block : PendingBlock) :
    Except (Exit BridgeValidatorError) BlockVerdict → Prop
  | .ok .Confirmed =>
      Grounds cfg told (bridgeModes chain) block.block_number block.stored_block_hash true
  | .ok (.Reverted _) =>
      Grounds cfg told (bridgeModes chain) block.block_number block.stored_block_hash false
  | _ => True

theorem follows_verdictFor (hchain : (chain, el_rpcs) ∈ cfg.fcrChains) (block : PendingBlock) :
    Act.Follows (protocol cfg told) () (verdictFor el_rpcs block)
      fun _ => Verdict cfg told chain block := by
  refine Act.follows_bind.mpr (Act.follows_attempt.mpr ?_)
  unfold getCanonicalBlockHash
  generalize false = any_provider_answered
  have hwalk : ∀ urls, (∀ url ∈ urls, url ∈ el_rpcs) → ∀ any_provider_answered,
      Act.Follows (protocol cfg told) ()
        (hashFromElRpcs block.block_number any_provider_answered urls) fun _ r =>
          ∀ canonical, r = .ok (some canonical) →
            ∃ url ∈ el_rpcs, told url block.block_number canonical := by
    intro urls
    induction urls with
    | nil =>
        intro _ any_provider_answered
        cases any_provider_answered <;> exact nofun
    | cons el_rpc rest ih =>
        intro hurls any_provider_answered
        refine Act.follows_bind.mpr (follows_await.mpr ⟨trivial, fun x htold => ?_⟩)
        have hrest : ∀ url ∈ rest, url ∈ el_rpcs :=
          fun url h => hurls url (List.mem_cons_of_mem _ h)
        cases hx : readHashAnswer x with
        | failed => simpa only [hx] using ih hrest any_provider_answered
        | noHash => simpa only [hx] using ih hrest true
        | hash h =>
            simp only [hx]
            rintro canonical ⟨⟩
            exact ⟨el_rpc, hurls el_rpc List.mem_cons_self, htold h hx⟩
  refine (hwalk el_rpcs (fun _ h => h) any_provider_answered).mono ?_
  rintro _ ((e | m) | (_ | canonical)) htold
  · trivial
  · trivial
  · trivial
  · obtain ⟨url, hurl, htold⟩ := htold canonical rfl
    refine Act.follows_ite.mpr ⟨fun hsame => ?_, fun hdiffers => ?_⟩
    · exact ⟨chain, el_rpcs, url, canonical, hchain, rfl, hurl, htold, hsame⟩
    · exact ⟨chain, el_rpcs, url, canonical, hchain, rfl, hurl, htold,
        Bool.eq_false_iff.mpr hdiffers⟩

theorem follows_insertFalsePositives {block : PendingBlock} {canonical_block_hash : Option String}
    {finalized_block : Int} (affected : List (Int × Option String × Option Int)) :
    Act.Follows (protocol cfg told) () (insertFalsePositives chain block canonical_block_hash
      finalized_block affected) fun _ _ => True := by
  induction affected with
  | nil => trivial
  | cons row rest ih =>
      simp only [insertFalsePositives, Act.follows_bind, follows_sql]
      exact ⟨trivial, fun _ _ => ih, fun _ _ => trivial⟩

theorem follows_recordFalsePositive {block : PendingBlock} {canonical_block_hash : Option String}
    {finalized_block : Int} (hgrounds : Grounds cfg told (bridgeModes chain) block.block_number
      block.stored_block_hash false) :
    Act.Follows (protocol cfg told) () (recordFalsePositive chain block canonical_block_hash
      finalized_block) fun _ _ => True := by
  simp only [recordFalsePositive, inTransaction, Act.follows_bind, Act.follows_attempt,
    follows_sql]
  refine ⟨trivial, fun _ _ => ⟨trivial, fun affected _ => ?_, fun _ _ => ⟨trivial, ?_⟩⟩,
    fun _ _ => trivial⟩
  · apply (follows_insertFalsePositives affected).mono
    rintro _ ((e | m) | a) -
    · exact ⟨trivial, fun _ _ => trivial⟩
    · trivial
    · exact ⟨hgrounds, fun _ _ => ⟨trivial, fun _ _ => trivial,
        fun _ _ => ⟨trivial, fun _ _ => trivial⟩⟩, fun _ _ => ⟨trivial, fun _ _ => trivial⟩⟩
  · intro _ _
    trivial

theorem follows_adjudicateAll (hchain : (chain, el_rpcs) ∈ cfg.fcrChains) {finalized_block : Int}
    (pending : List PendingBlock) :
    Act.Follows (protocol cfg told) () (adjudicateAll chain el_rpcs finalized_block pending)
      fun _ _ => True := by
  induction pending with
  | nil => trivial
  | cons block rest ih =>
      simp only [adjudicateAll, adjudicate, Act.follows_bind]
      apply (follows_verdictFor hchain block).mono
      rintro _ (_ | _ | canonical_block_hash | _) hverdict
      · trivial
      · simp only [markConfirmed, Act.follows_bind, follows_sql]
        exact ⟨hverdict, fun _ _ => ih, fun _ _ => trivial⟩
      · apply (follows_recordFalsePositive hverdict).mono
        rintro _ (_ | _) -
        · trivial
        · exact ih
      · exact ih

theorem follows_checkChain (hchain : (chain, el_rpcs) ∈ cfg.fcrChains) :
    Act.Follows (protocol cfg told) () (checkChain cfg chain el_rpcs) fun _ _ => True := by
  refine Act.follows_bind.mpr
    ((follows_getFinalizedBlockNumber (protocol_ignoresLookups.at _ _)).mono ?_)
  rintro _ (_ | finalized_block) -
  · trivial
  · simp only [reportBacklog, pendingBlocks, Act.follows_bind, follows_sql]
    exact ⟨trivial, fun _ _ => ⟨trivial, fun _ _ => ⟨trivial,
      fun _ _ => follows_adjudicateAll hchain _, fun _ _ => trivial⟩, fun _ _ => trivial⟩,
      fun _ _ => trivial⟩

theorem follows_cycle : Act.Follows (protocol cfg told) () (cycle cfg) fun _ _ => True := by
  have hall : ∀ chains, (∀ c ∈ chains, c ∈ cfg.fcrChains) →
      Act.Follows (protocol cfg told) () (checkChains cfg chains) fun _ _ => True := by
    intro chains
    induction chains with
    | nil => exact fun _ => trivial
    | cons c rest ih =>
        intro hchains
        have hrest := ih fun c hc => hchains c (List.mem_cons_of_mem _ hc)
        refine Act.follows_bind.mpr (Act.follows_attempt.mpr
          ((follows_checkChain (hchains c List.mem_cons_self)).mono ?_))
        rintro _ ((e | m) | a) -
        · exact hrest
        · trivial
        · exact hrest
  exact hall _ fun _ h => h

end FcrChecker

/-! ## The services in the system -/

namespace Job

variable {lib : Externals} {cfg : Config}

theorem follows_index {good : RpcLog → Prop} (i : IndexerId) (last_processed_block : Nat) :
    Act.Follows ((i.indexer cfg).protocol good) ()
      (prog lib cfg (.index i last_processed_block)) fun _ _ => True := by
  refine Act.follows_bind.mpr ((EventIndexer.follows_cycle last_processed_block).mono ?_)
  rintro _ (_ | _) - <;> trivial

theorem follows_process (k : ProcessorId) :
    Act.Follows (MessageProcessor.protocol cfg) none (prog lib cfg (.process k))
      fun _ _ => True := by
  refine Act.follows_bind.mpr (MessageProcessor.follows_iteration.mono ?_)
  rintro _ (_ | _) - <;> trivial

theorem follows_send (data : SenderData) :
    Act.Follows (OnChainSender.protocol data.event_log_id) false (prog lib cfg (.send data))
      fun _ _ => True := by
  refine Act.follows_bind.mpr (OnChainSender.follows_handle.mono ?_)
  rintro _ (_ | _) - <;> trivial

theorem follows_check {told : FcrChecker.Hearsay} :
    Act.Follows (FcrChecker.protocol cfg told) () (prog lib cfg .check) fun _ _ => True := by
  refine Act.follows_bind.mpr (FcrChecker.follows_cycle.mono ?_)
  rintro _ (_ | _) - <;> trivial

end Job

/-- A round that follows a protocol makes only calls the protocol allows. -/
theorem Sys.Coherent.allows {W : World} {lib : Externals} {s : Sys W} {v : Service}
    {r : Running} {o : Op} {job : Job} {σ : Type} {P : Protocol Calls σ} {g : σ}
    {k : o.Ans → Prog Calls (Except (Exit BridgeValidatorError) (Option Nat))}
    {Q : σ → Except (Exit BridgeValidatorError) (Option Nat) → Prop}
    (hs : s.Coherent lib) (hr : s.running v = some r) (hrest : r.rest = Prog.call o k)
    (hjob : r.job = job) (hP : Act.Follows P g (job.prog lib s.config) Q)
    (hadm : P.Admitted g r.trace) : P.allows (P.after g r.trace) o := by
  subst hjob
  have h := Prog.Follows.steps hP (hs v r hr).2 hadm
  rw [hrest] at h
  exact h.1

/-- What a round may call next, by the protocol of its service. -/
def Running.Allows (cfg : Config) (r : Running) (o : Op) : Prop :=
  match r.job with
  | .index i _ => ((i.indexer cfg).protocol fun _ => True).allows () o
  | .process _ => (MessageProcessor.protocol cfg).allows
      ((MessageProcessor.protocol cfg).after none r.trace) o
  | .send data => (OnChainSender.protocol data.event_log_id).allows
      ((OnChainSender.protocol data.event_log_id).after false r.trace) o
  | .check => (FcrChecker.protocol cfg FcrChecker.anything).allows () o

/-- **Every call keeps to the protocol of the service that makes it.** -/
theorem Sys.Coherent.running_allows {W : World} {lib : Externals} {s : Sys W} {v : Service}
    {r : Running} {o : Op}
    {k : o.Ans → Prog Calls (Except (Exit BridgeValidatorError) (Option Nat))}
    (hs : s.Coherent lib) (hr : s.running v = some r) (hrest : r.rest = Prog.call o k) :
    r.Allows s.config o := by
  unfold Running.Allows
  cases hjob : r.job with
  | index i last_processed_block =>
      exact hs.allows hr hrest hjob (Job.follows_index i last_processed_block)
        (Protocol.admitted_of_all _ (fun _ => EventIndexer.protocol_admits_anything) _ _)
  | process k =>
      exact hs.allows hr hrest hjob (Job.follows_process k)
        (Protocol.admitted_of_all _ (fun _ _ _ => trivial) _ _)
  | send data =>
      exact hs.allows hr hrest hjob (Job.follows_send data)
        (Protocol.admitted_of_all _ (fun _ _ _ => trivial) _ _)
  | check =>
      exact hs.allows hr hrest hjob Job.follows_check
        (Protocol.admitted_of_all _ (fun _ => FcrChecker.protocol_admits_anything) _ _)

/-- A message is handed over by a processor. -/
theorem Sys.Coherent.processor_of_channelSend {W : World} {lib : Externals} {s : Sys W}
    {v : Service} {r : Running} {data : SenderData}
    {k : Except String Unit → Prog Calls (Except (Exit BridgeValidatorError) (Option Nat))}
    (hs : s.Coherent lib) (hr : s.running v = some r)
    (hrest : r.rest = @Prog.call Calls _ (.channelSend data) k) :
    ∃ j, v = .processor j ∧ r.job = .process j := by
  have hallow := hs.running_allows hr hrest
  have hservice := (hs v r hr).1
  unfold Running.Allows at hallow
  cases hjob : r.job with
  | process j =>
      rw [hjob] at hservice
      exact ⟨j, hservice.symm, rfl⟩
  | _ =>
      rw [hjob] at hallow
      exact hallow.elim

/-- The answers a service has got in its round in progress are ones its protocol
assumes. -/
def Sys.Heard {W : World} {σ : Type} (P : Config → Protocol Calls σ) (g : σ) (v : Service)
    (s : Sys W) : Prop :=
  ∀ r, s.running v = some r → (P s.config).Admitted g r.trace

theorem Sys.Heard.step {W : World} {lib : Externals} {s t : Sys W} {l : Label} {σ : Type}
    {P : Config → Protocol Calls σ} {g : σ} {v : Service} (h : s.Heard P g v)
    (hstep : s.Step lib l t) (hadmits : ∀ r o x sh, s.running v = some r →
      l = .call v ⟨o, x⟩ → s.shared.Answers o x sh →
      (P s.config).admits ((P s.config).after g r.trace) o x) : t.Heard P g v := by
  intro r' hr'
  rcases hstep.round hr' with hr | ⟨-, -, hnil⟩ | ⟨r, o, x, sh, hr, rfl, hans, -, htrace⟩
  · cases hl : l.isRestart with
    | false =>
        rw [hstep.config_eq hl]
        exact h r' hr
    | true =>
        cases l <;> cases hl
        cases hstep
        cases hr'
  · rw [hnil]
    trivial
  · rw [htrace, hstep.config_eq rfl]
    exact (Protocol.admitted_append _).mpr ⟨h r hr, hadmits r o x sh hr rfl hans, trivial⟩

/-- Rows are inserted by an indexer, made from logs. -/
theorem Sys.Coherent.insert_allows {W : World} {lib : Externals} {s : Sys W} {v : Service}
    {r : Running} {n : NewEventLog}
    {k : Except String Nat → Prog Calls (Except (Exit BridgeValidatorError) (Option Nat))}
    (hs : s.Coherent lib) (hr : s.running v = some r)
    (hrest : r.rest = @Prog.call Calls _ (.db (.insertEventLog n)) k) :
    ∃ i log log_index topic_key log_json, v = .indexer i ∧
      n = (i.indexer s.config).eventLogOf log log_index topic_key log_json := by
  have hallow := hs.running_allows hr hrest
  have hservice := (hs v r hr).1
  unfold Running.Allows at hallow
  cases hjob : r.job with
  | index i last_processed_block =>
      rw [hjob] at hallow hservice
      obtain ⟨log, log_index, topic_key, log_json, -, hn⟩ := hallow
      exact ⟨i, log, log_index, topic_key, log_json, hservice.symm, hn⟩
  | _ =>
      rw [hjob] at hallow
      exact hallow.elim

/-- What only the sender does. -/
def Op.bySender : Op → Bool
  | .rpc (.send ..) => true
  | .db (.updateStage ..) => true
  | .db (.incrementRetryCount _) => true
  | .db (.deleteEventLog _) => true
  | _ => false

theorem Sys.Coherent.sender_allows {W : World} {lib : Externals} {s : Sys W} {v : Service}
    {r : Running} {o : Op}
    {k : o.Ans → Prog Calls (Except (Exit BridgeValidatorError) (Option Nat))}
    (hs : s.Coherent lib) (hr : s.running v = some r) (hrest : r.rest = Prog.call o k)
    (ho : o.bySender = true) :
    v = .on_chain_sender ∧ ∃ data, r.job = .send data ∧
      (OnChainSender.protocol data.event_log_id).allows
        ((OnChainSender.protocol data.event_log_id).after false r.trace) o := by
  have hallow := hs.running_allows hr hrest
  unfold Running.Allows at hallow
  cases hjob : r.job with
  | send data =>
      rw [hjob] at hallow
      have hv : .on_chain_sender = v := by simpa [hjob, Job.service] using (hs v r hr).1
      exact ⟨hv.symm, data, rfl, hallow⟩
  | _ =>
      -- none of the other protocols has such a call
      rw [hjob] at hallow
      cases o with
      | channelSend data => cases ho
      | rpc rq => cases rq <;> first | exact hallow.elim | cases ho
      | db st => cases st <;> first | exact hallow.elim | cases ho

end BridgeValidator
