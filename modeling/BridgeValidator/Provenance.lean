import BridgeValidator.Attestations
import BridgeValidator.ProcessorOutcomes
import BridgeValidator.RowSteps

/-!
# Where transactions come from

Every transaction the sender hands over can be traced back: to the message it
works on, to the row a processor made that message of, and to the log an indexer
made that row of, in this lifetime of the process or an earlier one. What is sent
is what that log asks for and nothing else.
-/

namespace BridgeValidator

open Interaction OnChainSender

/-! ## Requests -/

/-- What an event of one of the four kinds asks a validator to do. -/
inductive Request where
  | ambAffirmation (message : Bytes)
  | ambSignature (message : Bytes)
  | xdaiAffirmation (recipient : Address) (value : U256) (nonce : B256)
  | xdaiSignature (recipient : Address) (value : U256) (nonce : B256) (token : Address)

/-- The stored log, read as the event of its mode. -/
def requestOf (lib : Externals) (mode : BridgeMode) (log_data : Json) : Except String Request := do
  let log ← lib.fromValue log_data
  match mode with
  | .AMB_ETH => return .ambAffirmation (← lib.decodeAmbAffirmation log)
  | .AMB_GC => return .ambSignature (← lib.decodeAmbSignature log)
  | .XDAI_ETH => do
      let (recipient, value, nonce) ← lib.decodeXdaiAffirmation log
      return .xdaiAffirmation recipient value nonce
  | .XDAI_GC => do
      let (recipient, value, nonce, token) ← lib.decodeXdaiSignature log
      return .xdaiSignature recipient value nonce token
  | .other _ => .error "unknown bridge mode"

namespace Request

variable (lib : Externals) (cfg : Config)

/-- The calldata for a request; the two kinds that need a signature carry one by the
configured key. -/
def EncodedAs (calldata : OnChainCallData) : Request → Prop
  | .ambAffirmation message => calldata = .AmbEth cfg.gc_amb_bridge_address ⟨message⟩
  | .ambSignature message => ∃ signer signature,
      IsSigner lib cfg.amb_validator_private_key signer ∧
      lib.signMessage signer message = .ok signature ∧
      calldata = .AmbGc cfg.gc_amb_bridge_address ⟨signature, message⟩
  | .xdaiAffirmation recipient value nonce =>
      calldata = .XdaiEth cfg.gc_xdai_bridge_address ⟨recipient, value, nonce⟩
  | .xdaiSignature recipient value nonce token => ∃ signer signature,
      IsSigner lib cfg.xdai_validator_private_key signer ∧
      lib.signMessage signer (xdaiMessageBytes cfg recipient value nonce token) = .ok signature ∧
      calldata = .XdaiGc cfg.gc_xdai_bridge_address
        ⟨signature, xdaiMessageBytes cfg recipient value nonce token⟩

/-- A signature request is met on the home bridge by this validator's own signature, and
on the foreign bridge by what the helper has collected. -/
def SignedOrExecuted (signer : PrivateKeySigner) (bridge : Bridge) (home : Address)
    (execution : Bytes → TxCall) (message : Bytes) (call : TxCall) : Prop :=
  (∃ signature, lib.signMessage signer message = .ok signature ∧
    call = .submitSignature bridge home signature message) ∨
  ∃ signatures, call = execution signatures

/-- The transactions that serve a request, from the address of the configured key. -/
def ServedBy (sender : Address) (call : TxCall) : Request → Prop
  | .ambAffirmation message =>
      validatorOf lib cfg.amb_validator_private_key = some sender ∧
      call = .ambExecuteAffirmation cfg.gc_amb_bridge_address message
  | .ambSignature message => ∃ signer, IsSigner lib cfg.amb_validator_private_key signer ∧
      sender = lib.signerAddress signer ∧
      SignedOrExecuted lib signer .amb cfg.gc_amb_bridge_address
        (.safeExecuteSignaturesWithAutoGasLimit cfg.eth_amb_bridge_address message) message call
  | .xdaiAffirmation recipient value nonce =>
      validatorOf lib cfg.xdai_validator_private_key = some sender ∧
      call = .xdaiExecuteAffirmation cfg.gc_xdai_bridge_address recipient value nonce
  | .xdaiSignature recipient value nonce token =>
      ∃ signer, IsSigner lib cfg.xdai_validator_private_key signer ∧
      sender = lib.signerAddress signer ∧
      SignedOrExecuted lib signer .xdai cfg.gc_xdai_bridge_address
        (.executeSignatures cfg.eth_xdai_bridge_address
          (xdaiMessageBytes cfg recipient value nonce token))
        (xdaiMessageBytes cfg recipient value nonce token) call

end Request

/-! ## The processor: calldata of the claimed row -/

namespace MessageProcessor

variable {lib : Externals} {cfg : Config} {row : EventLogRow}

/-- What is handed over is the calldata of what the claimed row asks for. -/
def encoding (lib : Externals) (cfg : Config) : Protocol Calls (Option EventLogRow) where
  allows held
    | .channelSend data => ∃ row request, held = some row ∧ row.id = data.event_log_id ∧
        requestOf lib row.bridge_mode row.log_data = .ok request ∧
        request.EncodedAs lib cfg data.on_chain_calldata
    | _ => True
  admits _ _ _ := True
  next := heldAfter

theorem encoding_handOver {calldata : OnChainCallData} (request : Request)
    (hrequest : requestOf lib row.bridge_mode row.log_data = .ok request)
    (hcalldata : request.EncodedAs lib cfg calldata) :
    Act.Follows (encoding lib cfg) (some row) (handOver row calldata) fun _ _ => True := by
  simp only [handOver, Act.follows_bind, follows_await]
  refine ⟨⟨row, request, rfl, rfl, hrequest, hcalldata⟩, fun _ _ => ?_⟩
  simp [follows_orErr]

theorem encoding_processMessageOrSkip :
    Act.Follows (encoding lib cfg) (some row) (processMessageOrSkip lib cfg row)
      fun _ _ => True := by
  refine Act.follows_bind.mpr (follows_orErr.mpr ⟨fun log hlog => ?_, fun _ _ => trivial⟩)
  cases hmode : row.bridge_mode with
  | AMB_ETH =>
      refine Act.follows_bind.mpr (follows_orErr.mpr ⟨fun encodedData hdata => ?_,
        fun _ _ => trivial⟩)
      exact encoding_handOver (.ambAffirmation encodedData)
        (by simp [requestOf, hmode, hlog, hdata, bind, Except.bind, pure, Except.pure]) rfl
  | AMB_GC =>
      refine Act.follows_bind.mpr (follows_orErr.mpr ⟨fun encodedData hdata => ?_,
        fun _ _ => trivial⟩)
      refine Act.follows_bind.mpr (follows_loadSigner.mpr ⟨fun _ => trivial,
        fun text htext => ⟨fun signer hparse => ?_, fun _ _ => trivial⟩⟩)
      refine Act.follows_bind.mpr (follows_orErr.mpr ⟨fun signature hsign => ?_,
        fun _ _ => trivial⟩)
      exact encoding_handOver (.ambSignature encodedData)
        (by simp [requestOf, hmode, hlog, hdata, bind, Except.bind, pure, Except.pure])
        ⟨signer, signature, ⟨text, htext, hparse⟩, hsign, rfl⟩
  | XDAI_ETH =>
      refine Act.follows_bind.mpr (follows_orErr.mpr ⟨?_, fun _ _ => trivial⟩)
      rintro ⟨recipient, value, nonce⟩ hdata
      exact encoding_handOver (.xdaiAffirmation recipient value nonce)
        (by simp [requestOf, hmode, hlog, hdata, bind, Except.bind, pure, Except.pure]) rfl
  | XDAI_GC =>
      refine Act.follows_bind.mpr (follows_orErr.mpr ⟨?_, fun _ _ => trivial⟩)
      rintro ⟨recipient, value, nonce, token⟩ hdata
      simp only [createXdaiMessage_eq, Act.orThrow_ok, Act.pure_andThen, hexDecode_message,
        orErr_ok]
      refine Act.follows_bind.mpr (follows_loadSigner.mpr ⟨fun _ => trivial,
        fun text htext => ⟨fun signer hparse => ?_, fun _ _ => trivial⟩⟩)
      refine Act.follows_bind.mpr (follows_orErr.mpr ⟨fun signature hsign => ?_,
        fun _ _ => trivial⟩)
      exact encoding_handOver (.xdaiSignature recipient value nonce token)
        (by simp [requestOf, hmode, hlog, hdata, bind, Except.bind, pure, Except.pure])
        ⟨signer, signature, ⟨text, htext, hparse⟩, hsign, rfl⟩
  | other text => trivial

theorem encoding_iteration :
    Act.Follows (encoding lib cfg) none (iteration lib cfg) fun _ _ => True := by
  refine Act.follows_bind.mpr (Act.follows_attempt.mpr (follows_sql.mpr
    ⟨trivial, ?_, fun _ _ => trivial⟩))
  rintro (_ | row) -
  · trivial
  · refine Act.follows_bind.mpr (Act.follows_attempt.mpr (encoding_processMessageOrSkip.mono ?_))
    rintro _ ((_ | _) | _) - <;> trivial

end MessageProcessor

/-! ## The sender: transactions for the message in hand -/

/-- The key a message is sent with. -/
def Config.validatorKey (cfg : Config) : OnChainCallData → Option String
  | .AmbEth .. => cfg.amb_validator_private_key
  | .AmbGc .. => cfg.amb_validator_private_key
  | .XdaiEth .. => cfg.xdai_validator_private_key
  | .XdaiGc .. => cfg.xdai_validator_private_key

namespace OnChainSender

/-- Transactions come from the validator's address, and attest or execute the message. -/
def relaying (lib : Externals) (cfg : Config) (msg : OnChainCallData) : Protocol Calls Unit where
  allows _
    | .rpc (.send _ sender call) => validatorOf lib (cfg.validatorKey msg) = some sender ∧
        (IsAttestation call msg ∨ IsExecution cfg call msg)
    | _ => True
  admits _ _ _ := True
  next _ _ _ := ()

section

variable {lib : Externals} {cfg : Config} {msg : OnChainCallData} {sender : Address}
  {call : TxCall} {id : Int} {g : Unit}

@[simp] theorem relaying_send : (relaying lib cfg msg).allows g (.rpc (.send id sender call)) ↔
    validatorOf lib (cfg.validatorKey msg) = some sender ∧
      (IsAttestation call msg ∨ IsExecution cfg call msg) := Iff.rfl

@[simp] theorem relaying_view {view : ViewCall} :
    (relaying lib cfg msg).allows g (.rpc (.view view)) ↔ True := Iff.rfl

@[simp] theorem relaying_connect {url : String} :
    (relaying lib cfg msg).allows g (.rpc (.connect url)) ↔ True := Iff.rfl

@[simp] theorem relaying_getReceipt {tx : Nat} :
    (relaying lib cfg msg).allows g (.rpc (.getReceipt tx)) ↔ True := Iff.rfl

@[simp] theorem relaying_db {st : Stmt} : (relaying lib cfg msg).allows g (.db st) ↔ True := Iff.rfl

@[simp] theorem relaying_admits {o : Op} {x : o.Ans} :
    (relaying lib cfg msg).admits g o x ↔ True := Iff.rfl

@[simp] theorem relaying_next {o : Op} {x : o.Ans} : (relaying lib cfg msg).next g o x = () := rfl

end

section

variable {lib : Externals} {cfg : Config} {msg : OnChainCallData} {id : Int} {stage : Stage}
  {signer : PrivateKeySigner} {required : U256}

attribute [local simp] Act.follows_bind Act.follows_pure Act.follows_panic Act.follows_ite
  Act.follows_orThrow Act.follows_attempt follows_await follows_sql follows_view
  follows_connect follows_orErr follows_loadSigner forall_except

theorem relaying_sendThenDelete {call : TxCall}
    (hsigner : IsSigner lib (cfg.validatorKey msg) signer)
    (hcall : IsAttestation call msg ∨ IsExecution cfg call msg) :
    Act.Follows (relaying lib cfg msg) () (sendThenDelete lib signer call id)
      fun _ _ => True := by
  simp [sendThenDelete, deleteEventLog, incrementRetryCount, validatorOf_eq hsigner, hcall]

theorem relaying_affirm {bridge : Bridge} {var : String} {contract_address : Address}
    {hash_msg : B256} {call : TxCall} (hcall : IsAttestation call msg) :
    Act.Follows (relaying lib cfg msg) ()
      (affirm lib cfg bridge (cfg.validatorKey msg) var contract_address hash_msg call id)
      fun _ _ => True := by
  have hsend : ∀ text signer, cfg.validatorKey msg = some text → lib.parseKey text = .ok signer →
      Act.Follows (relaying lib cfg msg) () (sendThenDelete lib signer call id) fun _ _ => True :=
    fun text signer htext hparse =>
      relaying_sendThenDelete ⟨text, htext, hparse⟩ (Or.inl hcall)
  simp +contextual [affirm, deleteEventLog, hsend]

theorem relaying_executeOnForeign {signatures : Bytes} {call : TxCall}
    (hsigner : IsSigner lib (cfg.validatorKey msg) signer) (hcall : IsExecution cfg call msg) :
    Act.Follows (relaying lib cfg msg) ()
      (executeOnForeign lib cfg signer required signatures call id) fun _ _ => True := by
  refine Act.follows_bind.mpr (follows_expectedSignaturesLen (fun expected => ?_)
    fun _ => trivial)
  refine Act.follows_ite.mpr ⟨fun _ => ?_, fun _ => ?_⟩
  · exact Act.follows_bind.mpr (follows_connect.mpr ⟨trivial,
      fun _ _ => relaying_sendThenDelete hsigner (Or.inr hcall), fun _ _ => trivial⟩)
  · exact Act.follows_bind.mpr (follows_expectedSignaturesLen
      (fun _ => by simp [deleteEventLog]) fun _ => trivial)

theorem relaying_signAndExecute {bridge : Bridge} {var : String} {contract_address : Address}
    {signature message : Bytes} {flag : String} {foreign : PrivateKeySigner → U256 → Action Unit}
    (hcall : IsAttestation (.submitSignature bridge contract_address signature message) msg)
    (hforeign : ∀ signer required, IsSigner lib (cfg.validatorKey msg) signer →
      Act.Follows (relaying lib cfg msg) () (foreign signer required) fun _ _ => True) :
    Act.Follows (relaying lib cfg msg) ()
      (signAndExecute lib cfg bridge (cfg.validatorKey msg) var contract_address signature message
        flag foreign id stage)
      fun _ _ => True := by
  refine Act.follows_bind.mpr (follows_loadSigner.mpr ⟨fun _ => trivial,
    fun text htext => ⟨fun signer hparse => ?_, fun _ _ => trivial⟩⟩)
  have hsigner : IsSigner lib (cfg.validatorKey msg) signer := ⟨text, htext, hparse⟩
  have hsender := validatorOf_eq hsigner
  have hexec := fun required => hforeign signer required hsigner
  simp [submitSignature, deleteEventLog, incrementRetryCount, updateStage, hsender, hcall, hexec]

theorem relaying_processMessage :
    Act.Follows (relaying lib cfg msg) () (processMessage lib cfg msg id stage)
      fun _ _ => True := by
  cases msg with
  | AmbEth contract_address calldata => exact relaying_affirm rfl
  | XdaiEth contract_address calldata => exact relaying_affirm rfl
  | AmbGc contract_address calldata =>
      refine relaying_signAndExecute rfl fun signer required hsigner => ?_
      refine Act.follows_bind.mpr (follows_view.mpr ⟨trivial, fun signatures _ => ?_,
        fun _ _ => trivial⟩)
      exact relaying_executeOnForeign hsigner ⟨signatures, rfl⟩
  | XdaiGc contract_address calldata =>
      refine relaying_signAndExecute rfl fun signer required hsigner => ?_
      refine Act.follows_bind.mpr (Act.follows_orThrow.mpr ⟨fun parsed _ => ?_,
        fun _ _ => trivial⟩)
      refine Act.follows_bind.mpr (follows_view.mpr ⟨trivial, fun msg_hash _ => ?_,
        fun _ _ => trivial⟩)
      refine Act.follows_bind.mpr (follows_view.mpr ⟨trivial, fun signatures _ => ?_,
        fun _ _ => trivial⟩)
      exact relaying_executeOnForeign hsigner ⟨signatures, rfl⟩

theorem relaying_handle {data : SenderData} :
    Act.Follows (relaying lib cfg data.on_chain_calldata) () (handle lib cfg data)
      fun _ _ => True := by
  refine Act.follows_bind.mpr (Act.follows_attempt.mpr (relaying_processMessage.mono ?_))
  rintro _ ((e | m) | a) -
  · simp [incrementRetryCount]
  · trivial
  · trivial

end

end OnChainSender

/-! ## The indexer: rows of fetched logs -/

namespace EventIndexer

/-- Asked for at the indexer's own provider, contract and event. -/
def OwnFilter (ix : EventIndexer) (chain : Chain) (filter : Filter) : Prop :=
  chain = ix.provider ∧ filter.address = ix.contract_address ∧ filter.event = ix.event_name

instance (ix : EventIndexer) (chain : Chain) (filter : Filter) :
    Decidable (ix.OwnFilter chain filter) := by unfold OwnFilter; infer_instance

/-- The logs fetched so far. -/
def fetchedAfter (ix : EventIndexer) (got : List RpcLog) : (o : Op) → o.Ans → List RpcLog
  | .rpc (.getLogs chain filter), .ok logs => if ix.OwnFilter chain filter then got ++ logs else got
  | _, _ => got

/-- The row is made of this log. -/
structure RowOf (lib : Externals) (ix : EventIndexer) (log : RpcLog) (row : NewEventLog) :
    Prop where
  json : lib.toValue log = .ok row.log_data
  row : ∃ log_index topic_key, log.log_index = some log_index ∧
    log.topics.head? = some topic_key ∧
    row = ix.eventLogOf log log_index topic_key row.log_data

/-- Every INSERT is of a row made of a fetched log. -/
def recording (lib : Externals) (ix : EventIndexer) : Protocol Calls (List RpcLog) where
  allows got
    | .db (.insertEventLog row) => ∃ log ∈ got, ix.RowOf lib log row
    | _ => True
  admits _ _ _ := True
  next := ix.fetchedAfter

variable {lib : Externals} {ix : EventIndexer} {got : List RpcLog}

theorem recording_ignoresLookups : IgnoresLookups (ix.recording lib) where
  beacon _ _ := ⟨trivial, fun _ => rfl⟩
  el _ _ _ := ⟨trivial, fun _ => rfl⟩

theorem recording_storeLogs (logs : List RpcLog) (hgot : ∀ log ∈ logs, log ∈ got) :
    Act.Follows (ix.recording lib) got (ix.storeLogs lib logs) fun _ _ => True := by
  apply (inserts_storeLogs logs ?_ fun _ _ => rfl).mono fun _ _ _ => trivial
  intro log hlog log_index topic_key log_json hindex htopic hjson
  exact ⟨log, hgot log hlog, hjson, log_index, topic_key, hindex, htopic, rfl⟩

theorem recording_indexBlockRange (c : Chunk) :
    Act.Follows (ix.recording lib) got (ix.indexBlockRange lib c) fun _ _ => True := by
  refine Act.follows_bind.mpr (follows_await.mpr ⟨trivial, ?_⟩)
  rintro (e | logs) -
  · trivial
  · refine Act.follows_bind.mpr (follows_orErr.mpr ⟨?_, fun e he => by cases he⟩)
    rintro _ ⟨⟩
    refine recording_storeLogs logs fun log hlog => ?_
    have hown : ix.OwnFilter ix.provider
        { address := ix.contract_address, event := ix.event_name,
          from_block := c.from_block, to_block := c.to_block } := ⟨rfl, rfl, rfl⟩
    simp only [recording, fetchedAfter, if_pos hown]
    exact List.mem_append_right _ hlog

theorem recording_cycle (last_processed_block : Nat) :
    Act.Follows (ix.recording lib) got (ix.cycle lib last_processed_block) fun _ _ => True := by
  have hpoll : ∀ got upper_bound_block, Act.Follows (ix.recording lib) got
      (ix.pollAndIndex lib last_processed_block upper_bound_block) fun _ _ => True := by
    intro got upper_bound_block
    refine Prog.follows_interp (R := fun _ _ => True) (fun t g c _ _ => ?_) (fun _ _ _ _ h => h)
      (follows_anyChunk _) trivial
    exact (recording_indexBlockRange c).mono fun _ _ _ => ⟨trivial, trivial⟩
  refine Act.follows_bind.mpr (Act.follows_attempt.mpr
    ((follows_resolveUpperBound (recording_ignoresLookups.at _ _)).mono ?_))
  rintro got' ((e | m) | upper_bound_block) -
  · trivial
  · trivial
  · refine Act.follows_bind.mpr (Act.follows_attempt.mpr ((hpoll _ _).mono ?_))
    rintro _ ((_ | _) | _) - <;> trivial

/-- What has been fetched was in an answer to a request of the indexer's own. -/
theorem mem_fetched {log : RpcLog} {tr : Trace Calls}
    (h : log ∈ (ix.recording lib).after got tr) : log ∈ got ∨ ∃ chain filter logs,
      ⟨.rpc (.getLogs chain filter), .ok logs⟩ ∈ tr ∧ ix.OwnFilter chain filter ∧ log ∈ logs := by
  induction tr generalizing got with
  | nil => exact Or.inl h
  | cons e tr ih =>
      rcases ih h with hgot | ⟨chain, filter, logs, hmem, hown, hlog⟩
      · obtain ⟨o, x⟩ := e
        simp only [recording, fetchedAfter] at hgot
        split at hgot
        · split at hgot
          · rename_i hown
            rcases List.mem_append.mp hgot with hgot | hlog
            · exact Or.inl hgot
            · exact Or.inr ⟨_, _, _, List.mem_cons_self, hown, hlog⟩
          · exact Or.inl hgot
        · exact Or.inl hgot
      · exact Or.inr ⟨chain, filter, logs, List.mem_cons_of_mem _ hmem, hown, hlog⟩

end EventIndexer

/-! ## Where a row comes from -/

/-- The log an indexer made a row of. -/
structure Origin where
  indexer : IndexerId
  log : RpcLog
  row : NewEventLog

/-- In this step the row of `id` is made: of a log that was in an answer to the indexer, at
the provider of its chain, for its own contract and event. -/
structure Origin.StoredAs {W : World} (lib : Externals) (id : Int) (origin : Origin)
    (past : List Label) (s : Sys W) (l : Label) (t : Sys W) : Prop where
  insert : l = .call (.indexer origin.indexer) ⟨.db (.insertEventLog origin.row), .ok 1⟩
  row : t.row? id = some (origin.row.toRow id)
  fresh : s.shared.db.next_id = id
  made : (origin.indexer.indexer s.config).RowOf lib origin.log origin.row
  fetched : ∃ filter logs, .call (.indexer origin.indexer)
      ⟨.rpc (.getLogs origin.indexer.chain filter), .ok logs⟩ ∈ past ∧ origin.log ∈ logs ∧
    filter.address = (origin.indexer.indexer s.config).contract_address ∧
    filter.event = (origin.indexer.indexer s.config).event_name

/-- The run has made the row of `id`, with this mode and this log. -/
def Known {W : World} (lib : Externals) (s₀ : Sys W) (ls : List Label) (s : Sys W) (id : Int)
    (mode : BridgeMode) (log_data : Json) : Prop :=
  ∃ origin : Origin, origin.row.bridge_mode = mode ∧ origin.row.log_data = log_data ∧
    (system lib W).Passed s₀ ls s (origin.StoredAs lib id)

/-- The message is the calldata of what a row of the run asks for. -/
def SenderData.Asked {W : World} (lib : Externals) (s₀ : Sys W) (ls : List Label) (s : Sys W)
    (data : SenderData) : Prop :=
  ∃ mode log_data request, Known lib s₀ ls s data.event_log_id mode log_data ∧
    requestOf lib mode log_data = .ok request ∧
    request.EncodedAs lib s.config data.on_chain_calldata

section

variable {W : World} {lib : Externals} {s₀ s t : Sys W} {ls : List Label} {l : Label} {id : Int}
  {mode : BridgeMode} {log_data : Json} {data : SenderData}

theorem Known.snoc (h : Known lib s₀ ls s id mode log_data) (hstep : s.Step lib l t) :
    Known lib s₀ (ls ++ [l]) t id mode log_data := by
  obtain ⟨origin, hmode, hdata, hpassed⟩ := h
  exact ⟨origin, hmode, hdata, hpassed.snoc hstep⟩

theorem SenderData.Asked.snoc (h : data.Asked lib s₀ ls s) (hstep : s.Step lib l t)
    (hlive : l.isRestart = false) : data.Asked lib s₀ (ls ++ [l]) t := by
  obtain ⟨mode, log_data, request, hknown, hrequest, hcalldata⟩ := h
  refine ⟨mode, log_data, request, hknown.snoc hstep, hrequest, ?_⟩
  rw [hstep.config_eq hlive]
  exact hcalldata

namespace Sys

/-- An INSERT that makes a row makes it of a log that was fetched before. -/
theorem Step.storedAs {i : IndexerId} {n : NewEventLog} (hs : s.Coherent lib)
    (hidle : ∀ v, s₀.running v = none) (hrun : (system lib W).Run s₀ ls s)
    (hstep : s.Step lib (.call (.indexer i) ⟨.db (.insertEventLog n), .ok 1⟩) t)
    (hrow : t.row? s.shared.db.next_id = some (n.toRow s.shared.db.next_id)) :
    ∃ origin : Origin, origin.row = n ∧
      origin.StoredAs lib s.shared.db.next_id ls s
        (.call (.indexer i) ⟨.db (.insertEventLog n), .ok 1⟩) t := by
  cases hstep with
  | @call v r o k x sh hr hrest hans =>
      have hservice := (hs _ r hr).1
      cases hjob : r.job with
      | index j last_processed_block =>
          rw [hjob] at hservice
          cases hservice
          have hfollows : Act.Follows ((i.indexer s.config).recording lib) []
              ((Job.index i last_processed_block).prog lib s.config) fun _ _ => True := by
            refine Act.follows_bind.mpr
              ((EventIndexer.recording_cycle last_processed_block).mono ?_)
            rintro _ (_ | _) - <;> trivial
          obtain ⟨log, hlog, hmade⟩ := hs.allows hr hrest hjob hfollows
            (Protocol.admitted_of_all _ (fun _ _ _ => trivial) _ _)
          rcases EventIndexer.mem_fetched hlog with hnone | ⟨chain, filter, logs, hmem, hown, hlogs⟩
          · cases hnone
          · have hchain : chain = i.chain := hown.1.trans (i.provider_eq s.config)
            subst hchain
            exact ⟨⟨i, log, n⟩, rfl, rfl, hrow, rfl, hmade, filter, logs,
              call_mem_labels hrun hidle hr _ hmem, hlogs, hown.2.1, hown.2.2⟩
      | _ =>
          rw [hjob] at hservice
          cases hservice

/-- What a processor has in hand it had before, or has just claimed. -/
theorem Step.claimed_of {k : ProcessorId} {row : EventLogRow} (h : s.Step lib l t)
    (hrow : t.claimed k = some row) :
    s.claimed k = some row ∨
      ∃ max, l = .call (.processor k) ⟨.db (.claim max), .ok (some row)⟩ := by
  obtain ⟨r', hr', hclaimed⟩ := Option.bind_eq_some_iff.mp hrow
  have hsame : ∀ r : Running, r.claimed t.config = r.claimed s.config :=
    fun r => Protocol.after_congr (MessageProcessor.protocol t.config)
      (MessageProcessor.protocol s.config) rfl none r.trace
  rw [hsame] at hclaimed
  rcases h.round hr' with hr | ⟨-, -, hnil⟩ | ⟨r, o, x, sh, hr, rfl, -, -, htrace⟩
  · exact Or.inl (Option.bind_eq_some_iff.mpr ⟨r', hr, hclaimed⟩)
  · simp [Running.claimed, hnil] at hclaimed
  · rw [Running.claimed, htrace, Protocol.after_append] at hclaimed
    have hheld : MessageProcessor.heldAfter (r.claimed s.config) o x = some row := hclaimed
    have hkept : r.claimed s.config = some row → s.claimed k = some row :=
      fun hkept => Option.bind_eq_some_iff.mpr ⟨r, hr, hkept⟩
    unfold MessageProcessor.heldAfter at hheld
    split at hheld
    · obtain rfl := hheld
      exact Or.inr ⟨_, rfl⟩
    · cases hheld
    · exact Or.inl (hkept hheld)

/-- What is in the channel was there before, or a processor hands it over now. -/
theorem Step.queued_of (hs : s.Coherent lib) (h : s.Step lib l t)
    (hdata : data ∈ t.shared.channel) :
    (data ∈ s.shared.channel ∧ l.isRestart = false) ∨
      ∃ j r k, l = .call (.processor j) ⟨.channelSend data, .ok ()⟩ ∧
        s.running (.processor j) = some r ∧ r.job = .process j ∧
        r.rest = @Prog.call Calls _ (.channelSend data) k := by
  cases h with
  | @call v r o k x sh hr hrest hans =>
      cases hans with
      | sent hroom =>
          rcases List.mem_append.mp hdata with hdata | hdata
          · exact Or.inl ⟨hdata, rfl⟩
          · obtain rfl := List.mem_singleton.mp hdata
            obtain ⟨j, rfl, hjob⟩ := hs.processor_of_channelSend hr hrest
            exact Or.inr ⟨j, r, k, rfl, hr, hjob, hrest⟩
      | _ => exact Or.inl ⟨hdata, rfl⟩
  | recv hidle hch => exact Or.inl ⟨List.mem_of_mem_tail hdata, rfl⟩
  | panic hr hrest => cases hdata
  | restart => cases hdata
  | _ => exact Or.inl ⟨hdata, rfl⟩

/-- What the sender works on it worked on before, or has just taken from the channel. -/
theorem Step.sending_of {r : Running} (h : s.Step lib l t)
    (hr : t.running .on_chain_sender = some r) (hjob : r.job = .send data) :
    l.isRestart = false ∧ (data ∈ s.shared.channel ∨
      ∃ r', s.running .on_chain_sender = some r' ∧ r'.job = .send data) := by
  have hlive : l.isRestart = false := by
    cases h with
    | restart => cases hr
    | _ => rfl
  refine ⟨hlive, ?_⟩
  rcases h.round hr with hr | ⟨rfl, -, -⟩ | ⟨r', o, x, sh, hr', -, -, hjob', -⟩
  · exact Or.inr ⟨r, hr, hjob⟩
  · rw [hjob] at h
    cases h with
    | recv hidle hch =>
        rw [hch]
        exact Or.inl List.mem_cons_self
  · exact Or.inr ⟨r', hr', hjob'.symm.trans hjob⟩

/-! ## Everything on its way is accounted for -/

/-- Rows, claimed rows and messages on their way all come from logs of the run. -/
structure Sourced (lib : Externals) (s s₀ : Sys W) (ls : List Label) : Prop where
  rows : ∀ id r, s.row? id = some r → Known lib s₀ ls s id r.bridge_mode r.log_data
  claimed : ∀ k row, s.claimed k = some row →
    Known lib s₀ ls s row.id row.bridge_mode row.log_data
  queued : ∀ data ∈ s.shared.channel, data.Asked lib s₀ ls s
  sending : ∀ r data, s.running .on_chain_sender = some r → r.job = .send data →
    data.Asked lib s₀ ls s

/-- A row keeps its log and its mode, or has just been made. -/
theorem Step.known_row (hs : s.Coherent lib) (hk : s.shared.db.Keyed)
    (hidle : ∀ v, s₀.running v = none) (hrun : (system lib W).Run s₀ ls s)
    (h : s.Step lib l t)
    (hrows : ∀ id r, s.row? id = some r → Known lib s₀ ls s id r.bridge_mode r.log_data)
    {r' : EventLog} (hr' : t.row? id = some r') :
    Known lib s₀ (ls ++ [l]) t id r'.bridge_mode r'.log_data := by
  have hrow := h.rowStep hs hk id
  generalize hafter : t.row? id = after at hrow
  rw [hafter] at hr'
  subst hr'
  generalize hsome : some r' = after at hrow
  cases hrow with
  | same _ => exact (hrows id r' hsome.symm).snoc h
  | inserted hid =>
      obtain rfl := Option.some.inj hsome
      subst hid
      obtain ⟨origin, hn, hstored⟩ := h.storedAs hs hidle hrun hafter
      exact ⟨origin, by rw [hn]; rfl, by rw [hn]; rfl, .now hrun h hstored⟩
  | claimed hr | staged hr | released hr | checked hr =>
      obtain rfl := Option.some.inj hsome
      exact (hrows id _ hr).snoc h
  | deleted => cases hsome

theorem Sourced.step (h : s.Sourced lib s₀ ls) (hs : s.Coherent lib) (hk : s.shared.db.Keyed)
    (hidle : ∀ v, s₀.running v = none) (hrun : (system lib W).Run s₀ ls s)
    (hstep : s.Step lib l t) : t.Sourced lib s₀ (ls ++ [l]) := by
  refine ⟨fun id r' hr' => hstep.known_row hs hk hidle hrun h.rows hr', fun k row hrow => ?_,
    fun data hdata => ?_, fun r data hr hjob => ?_⟩
  · rcases hstep.claimed_of hrow with hrow | ⟨max, rfl⟩
    · exact (h.claimed k row hrow).snoc hstep
    · obtain ⟨v, max', r, heq, hr, -, -⟩ :=
        hstep.claims hk (decide_eq_true rfl : decide (row.id = row.id) = true)
      cases heq
      exact (h.rows _ r hr).snoc hstep
  · rcases hstep.queued_of hs hdata with ⟨hdata, hlive⟩ | ⟨j, r, k, rfl, hr, hjob, hrest⟩
    · exact (h.queued data hdata).snoc hstep hlive
    · have hfollows : Act.Follows (MessageProcessor.encoding lib s.config) none
          ((Job.process j).prog lib s.config) fun _ _ => True := by
        refine Act.follows_bind.mpr (MessageProcessor.encoding_iteration.mono ?_)
        rintro _ (_ | _) - <;> trivial
      obtain ⟨row, request, hrow, hid, hrequest, hcalldata⟩ := hs.allows hr hrest hjob hfollows
        (Protocol.admitted_of_all _ (fun _ _ _ => trivial) _ _)
      rw [Protocol.after_congr (MessageProcessor.encoding lib s.config)
        (MessageProcessor.protocol s.config) rfl] at hrow
      have hknown := h.claimed j row (Option.bind_eq_some_iff.mpr ⟨r, hr, hrow⟩)
      rw [hid] at hknown
      refine ⟨row.bridge_mode, row.log_data, request, hknown.snoc hstep, hrequest, ?_⟩
      rw [hstep.config_eq rfl]
      exact hcalldata
  · obtain ⟨hlive, hbefore⟩ := hstep.sending_of hr hjob
    rcases hbefore with hdata | ⟨r', hr', hjob'⟩
    · exact (h.queued data hdata).snoc hstep hlive
    · exact (h.sending r' data hr' hjob').snoc hstep hlive

end Sys

end

section

variable {W : World} {lib : Externals} {s₀ s t : Sys W} {ls : List Label}

/-- Whatever the process is on, it is on because of a log it has fetched and stored. -/
theorem sourced_of_run (h₀ : (system lib W).init s₀) (hrun : (system lib W).Run s₀ ls s) :
    s.Sourced lib s₀ ls := by
  have hreach : ∀ ls s, (system lib W).Run s₀ ls s → (system lib W).Reachable s :=
    fun ls s hrun => ⟨s₀, ls, h₀, hrun⟩
  refine hrun.history (I := fun ls s => s.Sourced lib s₀ ls) ?_ ?_
  · obtain ⟨cfg, w, -, rfl⟩ := h₀
    refine ⟨fun id r hr => ?_, fun k row hrow => ?_, fun data hdata => ?_, fun r data hr => ?_⟩
    · cases hr
    · cases hrow
    · cases hdata
    · cases hr
  · intro ls s l t hrun hsourced hstep
    have hs := hreach ls s hrun
    refine hsourced.step (coherent_of_reachable hs) (owned_of_reachable hs).keyed ?_ hrun hstep
    obtain ⟨cfg, w, -, rfl⟩ := h₀
    exact fun v => rfl

/-- The transactions for the calldata of a request are those that serve it. -/
theorem Request.servedBy_of_encodedAs {cfg : Config} {request : Request}
    {calldata : OnChainCallData} {sender : Address} {call : TxCall}
    (h : request.EncodedAs lib cfg calldata)
    (hsender : validatorOf lib (cfg.validatorKey calldata) = some sender)
    (hcall : IsAttestation call calldata ∨ IsExecution cfg call calldata) :
    request.ServedBy lib cfg sender call := by
  cases request with
  | ambAffirmation message =>
      obtain rfl := h
      exact ⟨hsender, hcall.resolve_right id⟩
  | xdaiAffirmation recipient value nonce =>
      obtain rfl := h
      exact ⟨hsender, hcall.resolve_right id⟩
  | ambSignature message =>
      obtain ⟨signer, signature, hsigner, hsign, rfl⟩ := h
      have haddress := Option.some.inj (hsender.symm.trans (validatorOf_eq hsigner))
      exact ⟨signer, hsigner, haddress, hcall.imp (fun hcall => ⟨signature, hsign, hcall⟩) id⟩
  | xdaiSignature recipient value nonce token =>
      obtain ⟨signer, signature, hsigner, hsign, rfl⟩ := h
      have haddress := Option.some.inj (hsender.symm.trans (validatorOf_eq hsigner))
      exact ⟨signer, hsigner, haddress, hcall.imp (fun hcall => ⟨signature, hsign, hcall⟩) id⟩

/-- **Every transaction serves a request that came in as a log.** For any providers, any
interleaving and any number of restarts with any configurations: what the sender hands
over for a row is what the log of that row asks for, under the configuration and from the
address of the validator in force, and an indexer had that log from its own provider. -/
theorem transaction_serves_fetched_log {v : Service} {id : Int} {sender : Address}
    {call : TxCall} {x : Except String Nat} (h₀ : (system lib W).init s₀)
    (hrun : (system lib W).Run s₀ ls s)
    (hstep : s.Step lib (.call v ⟨.rpc (.send id sender call), x⟩) t) :
    ∃ (origin : Origin) (request : Request),
      (system lib W).Passed s₀ ls s (origin.StoredAs lib id) ∧
      requestOf lib origin.row.bridge_mode origin.row.log_data = .ok request ∧
      request.ServedBy lib s.config sender call := by
  have hs := coherent_of_reachable ⟨s₀, ls, h₀, hrun⟩
  have hsourced := sourced_of_run h₀ hrun
  cases hstep with
  | @call _ r _ k _ sh hr hrest hans =>
      obtain ⟨rfl, data, hjob, hid⟩ := hs.sender_allows hr hrest rfl
      have hfollows : Act.Follows (relaying lib s.config data.on_chain_calldata) ()
          ((Job.send data).prog lib s.config) fun _ _ => True := by
        refine Act.follows_bind.mpr (relaying_handle.mono ?_)
        rintro _ (_ | _) - <;> trivial
      obtain ⟨hsender, hcall⟩ := hs.allows hr hrest hjob hfollows
        (Protocol.admitted_of_all _ (fun _ _ _ => trivial) _ _)
      obtain ⟨mode, log_data, request, ⟨origin, rfl, rfl, hpassed⟩, hrequest, hcalldata⟩ :=
        hsourced.sending r data hr hjob
      obtain rfl : id = data.event_log_id := hid
      exact ⟨origin, request, hpassed, hrequest,
        Request.servedBy_of_encodedAs hcalldata hsender hcall⟩

/-- A transaction is sent for the row. -/
def Label.sendsFor (id : Int) : Label → Bool
  | .call _ ⟨.rpc (.send row ..), _⟩ => decide (row = id)
  | _ => false

/-- An affirmation request, served on the home bridge. -/
theorem transaction_serves_fetched_log_affirmed :
    ∃ (s₀ s : Sys World.any) (ls : List Label) (origin : Origin) (request : Request)
      (sender : Address) (call : TxCall),
      (system Deployment.externals World.any).Run s₀ ls s ∧
      (system Deployment.externals World.any).Passed s₀ ls s
        (origin.StoredAs Deployment.externals 1) ∧
      requestOf Deployment.externals origin.row.bridge_mode origin.row.log_data = .ok request ∧
      request.ServedBy Deployment.externals s.config sender call := by
  have hboot : (Sys.boot Deployment.config Db.empty () : Sys World.any).Resting :=
    Sys.resting_boot
  obtain ⟨ls, t, hrun, -, hp⟩ := Turn.exists_of_playAll
    [.index .ETHAmb (Deployment.lookups (.repeatByte 32 0xaa)),
      .process .msg_processor_1 (Deployment.lookups (.repeatByte 32 0xaa)),
      .send (Deployment.relay true)]
    (fun q => q.1.any (Label.sendsFor 1))
    Turn.sound_any hboot
    (show (Turn.playAll Deployment.externals _ _).any _ = true by decide +kernel)
  obtain ⟨l, hl, hsend⟩ := List.any_eq_true.mp hp
  obtain ⟨ls₁, s, t, ls₂, -, hbefore, hstep, -⟩ := hrun.split hl
  unfold Label.sendsFor at hsend
  split at hsend
  · obtain rfl := of_decide_eq_true hsend
    obtain ⟨origin, request, hpassed, hrequest, hserved⟩ := transaction_serves_fetched_log
      ⟨Deployment.config, (), trivial, rfl⟩ hbefore hstep
    exact ⟨_, s, ls₁, origin, request, _, _, hbefore, hpassed, hrequest, hserved⟩
  · cases hsend

end

end BridgeValidator
