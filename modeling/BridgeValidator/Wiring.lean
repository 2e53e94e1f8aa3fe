import BridgeValidator.Roles
import BridgeValidator.Rounds
import BridgeValidator.Rows
import BridgeValidator.XdaiMessage

/-!
# Which chain an indexer is on

`main` gives every indexer its provider. Everything else that depends on the chain
is worked out from the address of the contract: the bridge mode of the stored
rows, and from it the mode of the chain and the endpoints of its finality. The
two agree exactly when no two of the four addresses are the same.
-/

namespace BridgeValidator

open Interaction

variable {lib : Externals} {cfg : Config} {i : IndexerId}

/-! ## What the parts of the wiring mean -/

/-- `decode_log` of the event with this signature. -/
def Externals.decodeEvent (lib : Externals) (log : Log) : String → Except String Unit
  | "UserRequestForAffirmation(bytes32,bytes)" => (lib.decodeAmbAffirmation log).map fun _ => ()
  | "UserRequestForSignature(bytes32,bytes)" => (lib.decodeAmbSignature log).map fun _ => ()
  | "UserRequestForAffirmation(address,uint256,bytes32)" =>
      (lib.decodeXdaiAffirmation log).map fun _ => ()
  | "UserRequestForSignature(address,uint256,bytes32,address)" =>
      (lib.decodeXdaiSignature log).map fun _ => ()
  | _ => .error "no such event"

/-- A row of this mode fails to decode when, and as, the event of this signature
does. -/
def Config.Decodes (cfg : Config) (mode : BridgeMode) (event_name : String) : Prop :=
  ∀ (lib : Externals) (row : EventLogRow) (log : Log) (tr : Trace Calls)
    (r : Except (Exit BridgeValidatorError) Unit), row.bridge_mode = mode →
    lib.fromValue row.log_data = .ok log →
    Prog.Runs (MessageProcessor.processMessageOrSkip lib cfg row) tr r →
    ∀ e, r = .error (.error (.LogDecode e)) ↔ lib.decodeEvent log event_name = .error e

/-- The call is a lookup at one of these endpoints. -/
def Op.looksUpAt (rpcs : Option String × List String) : Op → Prop
  | .rpc (.beaconFinalized url) => rpcs.1 = some url
  | .rpc (.ethGetBlockByNumber url _) => url ∈ rpcs.2
  | _ => False

/-- The checker's cycle for the chain selects the block of this row once it has
finalized, if the row is pending. -/
def NewEventLog.IsSelectedOn (row : NewEventLog) (chain : Chain) : Prop :=
  ∀ (db : Db) (id n : Int) (h : String) (finalized_block : Int),
    row.toRow id ∈ db.event_logs → row.fcr_status = some .pending → row.block_number = some n →
    row.block_hash = some h → n ≤ finalized_block →
    (n, h) ∈ db.selectPendingBlocks (FcrChecker.bridgeModes chain) finalized_block

/-- The chain of an indexer is one and the same wherever it is worked out. -/
structure IndexerId.Wired (cfg : Config) (i : IndexerId) : Prop where
  chain : (i.indexer cfg).chain = (i.indexer cfg).provider
  decodes : cfg.Decodes (EventIndexer.checkBridgeMode (i.indexer cfg).contract_address cfg)
    (i.indexer cfg).event_name
  bounds : ∀ tr r, Prog.Runs (i.indexer cfg).resolveUpperBound tr r →
    ∀ e ∈ tr, e.op.looksUpAt (cfg.finalityRpcsForChain (i.indexer cfg).provider)
  inserts : ∀ lib c tr r, Prog.Runs ((i.indexer cfg).indexBlockRange lib c) tr r →
    ∀ row x, ⟨.db (.insertEventLog row), x⟩ ∈ tr →
      (row.fcr_status = some .pending ↔
        ∃ el_rpcs, ((i.indexer cfg).provider, el_rpcs) ∈ cfg.fcrChains) ∧
      row.bridge_mode ∈ Config.bridgeModesForChain (i.indexer cfg).provider ∧
      row.IsSelectedOn (i.indexer cfg).provider

/-! ## Decoding -/

theorem Op.nonempty_ans (o : Op) : Nonempty o.Ans := by
  cases o with
  | rpc r => cases r <;> first | exact ⟨.error ""⟩ | exact ⟨.transportError ""⟩
  | channelSend data => exact ⟨.error ""⟩
  | db st => exact ⟨.error ""⟩

/-- The run did not fail to decode. -/
def Decoded (r : Except (Exit BridgeValidatorError) Unit) : Prop :=
  ∀ e, r ≠ .error (.error (.LogDecode e))

section

variable {g : Trace Calls} {row : EventLogRow} {log : Log}

/-- Decoding comes first, and nothing after it reports a failure to decode. -/
theorem follows_decode {α : Type} {P : Protocol Calls (Trace Calls)} {decoded : Except String α}
    {k : α → Action Unit} (hk : ∀ a, Act.Follows P g (k a) fun _ => Decoded) :
    Act.Follows P g (orErr .LogDecode decoded >>= k) fun _ r =>
      ∀ e, r = .error (.error (.LogDecode e)) ↔ decoded = .error e := by
  refine Act.follows_bind.mpr (follows_orErr.mpr ⟨?_, ?_⟩)
  · rintro a rfl
    refine (hk a).mono fun g r hr e => ?_
    simp [hr e]
  · rintro e rfl e'
    simp

theorem decoded_handOver {calldata : OnChainCallData} :
    Act.Follows (recording fun _ _ => True) g (MessageProcessor.handOver row calldata)
      fun _ => Decoded := by
  refine Act.follows_bind.mpr (follows_await.mpr ⟨trivial, fun x _ => ?_⟩)
  refine follows_orErr.mpr ⟨fun a _ => ?_, fun e _ => ?_⟩ <;> simp [Decoded]

theorem decoded_loadSigner {key : Option String} {var : String}
    {k : PrivateKeySigner → Action Unit}
    (hk : ∀ signer, Act.Follows (recording fun _ _ => True) g (k signer) fun _ => Decoded) :
    Act.Follows (recording fun _ _ => True) g (loadSigner lib key var >>= k)
      fun _ => Decoded := by
  refine Act.follows_bind.mpr (follows_loadSigner.mpr ⟨fun _ => ?_, fun text _ => ⟨?_, ?_⟩⟩)
  · simp [Decoded]
  · exact fun signer _ => hk signer
  · simp [Decoded]

theorem decoded_orErr {α : Type} {err : String → BridgeValidatorError} {x : Except String α}
    {k : α → Action Unit} (herr : ∀ e, Decoded (.error (.error (err e))))
    (hk : ∀ a, Act.Follows (recording fun _ _ => True) g (k a) fun _ => Decoded) :
    Act.Follows (recording fun _ _ => True) g (orErr err x >>= k) fun _ => Decoded :=
  Act.follows_bind.mpr (follows_orErr.mpr ⟨fun a _ => hk a, fun e _ => herr e⟩)

end

/-- What an arm of `process_message_or_skip` decodes. -/
theorem decodes_of_arm {mode : BridgeMode} {event_name : String}
    (harm : ∀ (lib : Externals) (row : EventLogRow) (log : Log), row.bridge_mode = mode →
      lib.fromValue row.log_data = .ok log → Act.Follows (recording fun _ _ => True) []
        (MessageProcessor.processMessageOrSkip lib cfg row)
        fun _ r => ∀ e, r = .error (.error (.LogDecode e)) ↔
          lib.decodeEvent log event_name = .error e) : cfg.Decodes mode event_name :=
  fun lib row log _ _ hmode hlog hruns => follows_recording (harm lib row log hmode hlog) hruns
    fun _ _ => trivial

theorem map_eq_error {α β : Type} {f : α → β} {x : Except String α} {e : String} :
    x.map f = .error e ↔ x = .error e := by
  cases x <;> simp [Except.map]

/-- The event each arm decodes. -/
def BridgeMode.event : BridgeMode → String
  | .AMB_ETH => "UserRequestForAffirmation(bytes32,bytes)"
  | .AMB_GC => "UserRequestForSignature(bytes32,bytes)"
  | .XDAI_ETH => "UserRequestForAffirmation(address,uint256,bytes32)"
  | .XDAI_GC => "UserRequestForSignature(address,uint256,bytes32,address)"
  | .other _ => ""

theorem decodes_event {mode : BridgeMode} (hmode : ∀ text, mode ≠ .other text) :
    cfg.Decodes mode mode.event := by
  refine decodes_of_arm fun lib row log hrow hlog => ?_
  subst hrow
  refine Act.follows_bind.mpr (follows_orErr.mpr ⟨?_, fun e he => by rw [hlog] at he; cases he⟩)
  intro log' hlog'
  obtain rfl : log = log' := Except.ok.inj (hlog.symm.trans hlog')
  -- one case for each arm
  dsimp only
  split <;> rename_i hrow <;> rw [hrow] at hmode ⊢ <;>
    simp only [BridgeMode.event, Externals.decodeEvent, map_eq_error]
  · exact follows_decode fun encodedData => decoded_handOver
  · refine follows_decode fun encodedData => decoded_loadSigner fun signer => ?_
    exact decoded_orErr (by simp [Decoded]) fun signature => decoded_handOver
  · apply follows_decode
    rintro ⟨recipient, value, nonce⟩
    exact decoded_handOver
  · apply follows_decode
    rintro ⟨recipient, value, nonce, token⟩
    simp only [MessageProcessor.createXdaiMessage_eq, Act.orThrow_ok, Act.pure_andThen]
    -- which bytes the message has is of no matter here
    generalize hexDecode _ = decoded
    refine decoded_loadSigner fun signer => ?_
    refine decoded_orErr (by simp [Decoded]) fun message_bytes => ?_
    exact decoded_orErr (by simp [Decoded]) fun signature => decoded_handOver
  · exact absurd rfl (hmode _)

/-- Whatever a row decodes as, it decodes as one event only. -/
theorem Config.Decodes.unique {mode : BridgeMode} {event_name event_name' : String}
    (h : cfg.Decodes mode event_name) (h' : cfg.Decodes mode event_name') (lib : Externals)
    (log : Log) (e : String) :
    lib.decodeEvent log event_name = .error e ↔ lib.decodeEvent log event_name' = .error e := by
  let row : EventLogRow := ⟨1, "", mode, .null, none, none, none, none, none⟩
  let lib' : Externals := { lib with fromValue := fun _ => .ok log }
  obtain ⟨tr, r, hruns⟩ := Prog.exists_runs Op.nonempty_ans
    (MessageProcessor.processMessageOrSkip lib' cfg row)
  exact (h lib' row log tr r rfl rfl hruns e).symm.trans (h' lib' row log tr r rfl rfl hruns e)

/-! ## Bounds -/

/-- Only lookups at these endpoints. -/
def lookingUpAt (rpcs : Option String × List String) : Protocol Calls Unit where
  allows _ o := o.looksUpAt rpcs
  admits _ _ _ := True
  next _ _ _ := ()

theorem lookingUpAt_ignoresLookups (rpcs : Option String × List String) :
    IgnoresLookupsAt (lookingUpAt rpcs) rpcs.1 rpcs.2 where
  beacon _ _ hurl := ⟨hurl, fun _ => rfl⟩
  el _ _ _ hurl := ⟨hurl, fun _ => rfl⟩

/-- An indexer looks its bound up at the endpoints of the chain it takes itself to
be on. -/
theorem EventIndexer.looksUp_resolveUpperBound {ix : EventIndexer} {tr : Trace Calls}
    {r : Except (Exit BridgeValidatorError) Int} (h : Prog.Runs ix.resolveUpperBound tr r) :
    ∀ e ∈ tr, e.op.looksUpAt ix.finalityRpcs := by
  have hfollows : Act.Follows (lookingUpAt ix.finalityRpcs) () ix.resolveUpperBound (Quiet ()) :=
    follows_resolveUpperBound (lookingUpAt_ignoresLookups _)
  have hallowed := (hfollows.of_runs h
    ((lookingUpAt _).admitted_of_all (fun _ _ _ => trivial) _ _)).1
  exact hallowed.forall fun _ _ h => h

/-! ## Stored rows -/

theorem Config.mem_fcrChains_iff {chain : Chain} :
    (∃ el_rpcs, (chain, el_rpcs) ∈ cfg.fcrChains) ↔ cfg.modeForChain chain = .fcr := by
  unfold Config.fcrChains
  cases chain with
  | other name => simp [Config.modeForChain, default]
  | _ =>
      cases heth : cfg.eth_block_processing_mode <;> cases hgc : cfg.gc_block_processing_mode <;>
        simp [Config.modeForChain, BlockProcessingMode.isFcr, heth, hgc]

theorem EventIndexer.inserts_of_runs {ix : EventIndexer} {c : Chunk} {tr : Trace Calls}
    {r : Except (Exit BridgeValidatorError) Unit} (h : Prog.Runs (ix.indexBlockRange lib c) tr r)
    {row : NewEventLog} {x : Except String Nat} (hmem : ⟨.db (.insertEventLog row), x⟩ ∈ tr) :
    ∃ log log_index topic_key log_json,
      row = ix.eventLogOf log log_index topic_key log_json := by
  have hfollows : Act.Follows (ix.protocol fun _ => True) () (ix.indexBlockRange lib c)
      fun _ _ => True := follows_indexBlockRange c
  have hallowed := (hfollows.of_runs h ((ix.protocol _).admitted_of_all
    (fun _ => protocol_admits_anything) _ _)).1
  have hrow := hallowed.forall (p := fun o : Op => ∀ row, o = .db (.insertEventLog row) →
    ∃ log log_index topic_key log_json,
      row = ix.eventLogOf log log_index topic_key log_json) (by
    rintro g _ hallow row rfl
    obtain ⟨log, log_index, topic_key, log_json, -, hrow⟩ := hallow
    exact ⟨log, log_index, topic_key, log_json, hrow⟩)
  exact hrow _ hmem row rfl

/-- A row is pending iff the chain the indexer takes itself to be on is in fcr mode. -/
theorem EventIndexer.pending_iff {ix : EventIndexer} {log : RpcLog} {log_index : Nat}
    {topic_key : B256} {log_json : Json} :
    (ix.eventLogOf log log_index topic_key log_json).fcr_status = some .pending ↔
      ix.mode = .fcr := by
  unfold eventLogOf
  cases ix.mode <;> simp

theorem NewEventLog.isSelectedOn {row : NewEventLog} {chain : Chain}
    (hmode : row.bridge_mode ∈ Config.bridgeModesForChain chain) : row.IsSelectedOn chain := by
  intro db id n h finalized_block hmem hpending hnumber hhash hle
  refine Db.mem_selectPendingBlocks.mpr ⟨row.toRow id, hmem, ?_, ?_, hnumber, hhash⟩
  · simp [EventLog.isPendingOf, NewEventLog.toRow, FcrChecker.bridgeModes, hmode, hpending]
  · simp [EventLog.isUpTo, NewEventLog.toRow, hnumber, hle]

/-! ## Addresses -/

/-- The mode of the rows an indexer is meant to store. -/
def IndexerId.bridgeMode : IndexerId → BridgeMode
  | .ETHAmb => .AMB_ETH
  | .GCAmb => .AMB_GC
  | .ETHXdai => .XDAI_ETH
  | .GCXdai => .XDAI_GC

/-- The mode an indexer works out from the address of its contract. -/
def IndexerId.modeIn (cfg : Config) (i : IndexerId) : BridgeMode :=
  EventIndexer.checkBridgeMode (i.indexer cfg).contract_address cfg

/-- The contracts of the four indexers, in the order they are compared with. -/
def Config.bridgeAddresses (cfg : Config) : List Address :=
  [cfg.eth_amb_bridge_address, cfg.gc_amb_bridge_address, cfg.eth_xdai_bridge_address,
    cfg.gc_xdai_bridge_address]

theorem IndexerId.bridgeMode_injective : Function.Injective IndexerId.bridgeMode := by
  intro i j h
  cases i <;> cases j <;> first | rfl | cases h

/-- With four addresses, every indexer finds its own. -/
theorem IndexerId.modeIn_of_nodup (h : cfg.bridgeAddresses.Nodup) (i : IndexerId) :
    i.modeIn cfg = i.bridgeMode := by
  simp only [Config.bridgeAddresses, List.nodup_cons, List.mem_cons, List.not_mem_nil, or_false,
    not_or] at h
  obtain ⟨⟨hab, hac, had⟩, ⟨hbc, hbd⟩, hcd, -⟩ := h
  cases i with
  | ETHAmb => exact if_pos rfl
  | GCAmb => exact (if_neg (Ne.symm hab)).trans (if_pos rfl)
  | ETHXdai => exact (if_neg (Ne.symm hac)).trans ((if_neg (Ne.symm hbc)).trans (if_pos rfl))
  | GCXdai =>
      exact (if_neg (Ne.symm had)).trans ((if_neg (Ne.symm hbd)).trans
        ((if_neg (Ne.symm hcd)).trans (if_pos rfl)))

/-- The address of an indexer is one of the four, so some mode is found. -/
theorem IndexerId.exists_modeIn (i : IndexerId) : ∃ j : IndexerId, i.modeIn cfg = j.bridgeMode := by
  have hself : (i.indexer cfg).contract_address ∈ cfg.bridgeAddresses := by
    cases i <;> simp [indexer, Config.bridgeAddresses]
  simp only [Config.bridgeAddresses, List.mem_cons, List.not_mem_nil, or_false] at hself
  unfold modeIn EventIndexer.checkBridgeMode
  split
  · exact ⟨.ETHAmb, rfl⟩
  · split
    · exact ⟨.GCAmb, rfl⟩
    · split
      · exact ⟨.ETHXdai, rfl⟩
      · split
        · exact ⟨.GCXdai, rfl⟩
        · rename_i h₁ h₂ h₃ h₄
          rcases hself with h | h | h | h
          · exact absurd h h₁
          · exact absurd h h₂
          · exact absurd h h₃
          · exact absurd h h₄

theorem IndexerId.event_name_eq (i : IndexerId) (cfg : Config) :
    (i.indexer cfg).event_name = i.bridgeMode.event := by
  cases i <;> rfl

theorem decodes_bridgeMode (j : IndexerId) : cfg.Decodes j.bridgeMode j.bridgeMode.event := by
  refine decodes_event fun text => ?_
  cases j <;> exact nofun

/-- An indexer that finds its own mode is wired to its own chain. -/
theorem IndexerId.wired_of_modeIn (h : i.modeIn cfg = i.bridgeMode) : i.Wired cfg := by
  have hchain : (i.indexer cfg).chain = (i.indexer cfg).provider := by
    have hmode : EventIndexer.checkBridgeMode (i.indexer cfg).contract_address
        (i.indexer cfg).config = i.bridgeMode := by cases i <;> exact h
    unfold EventIndexer.chain
    rw [hmode]
    cases i <;> rfl
  have hcfg : (i.indexer cfg).config = cfg := by cases i <;> rfl
  refine ⟨hchain, ?_, fun tr r hruns => ?_, fun lib c tr r hruns row x hmem => ?_⟩
  · show cfg.Decodes (i.modeIn cfg) _
    rw [h, i.event_name_eq cfg]
    exact decodes_bridgeMode i
  · have hlooks := EventIndexer.looksUp_resolveUpperBound hruns
    rw [EventIndexer.finalityRpcs, hchain, hcfg] at hlooks
    exact hlooks
  · obtain ⟨log, log_index, topic_key, log_json, rfl⟩ := EventIndexer.inserts_of_runs hruns hmem
    have hmem : (EventIndexer.eventLogOf (i.indexer cfg) log log_index topic_key
        log_json).bridge_mode ∈ Config.bridgeModesForChain (i.indexer cfg).provider := by
      show EventIndexer.checkBridgeMode _ (i.indexer cfg).config ∈ _
      rw [hcfg]
      show i.modeIn cfg ∈ _
      rw [h]
      cases i <;> simp [bridgeMode, indexer, Config.bridgeModesForChain]
    refine ⟨?_, hmem, NewEventLog.isSelectedOn hmem⟩
    rw [EventIndexer.pending_iff, Config.mem_fcrChains_iff, EventIndexer.mode, hchain, hcfg]

/-- No two of the four events are decoded by the same code. -/
theorem IndexerId.exists_undecodable (i : IndexerId) (log : Log) : ∃ lib : Externals,
    lib.decodeEvent log i.bridgeMode.event = .error "short data" ∧
      ∀ j : IndexerId, j ≠ i → lib.decodeEvent log j.bridgeMode.event = .ok () := by
  have hothers : ∀ lib : Externals,
      (∀ j : IndexerId, j = i ∨ lib.decodeEvent log j.bridgeMode.event = .ok ()) →
      ∀ j : IndexerId, j ≠ i → lib.decodeEvent log j.bridgeMode.event = .ok () :=
    fun lib h j hj => (h j).resolve_left hj
  cases i with
  | ETHAmb =>
      refine ⟨{ Deployment.externals with decodeAmbAffirmation := fun _ => .error "short data" },
        rfl, hothers _ fun j => ?_⟩
      cases j <;> first | exact Or.inl rfl | exact Or.inr rfl
  | GCAmb =>
      refine ⟨{ Deployment.externals with decodeAmbSignature := fun _ => .error "short data" },
        rfl, hothers _ fun j => ?_⟩
      cases j <;> first | exact Or.inl rfl | exact Or.inr rfl
  | ETHXdai =>
      refine ⟨{ Deployment.externals with decodeXdaiAffirmation := fun _ => .error "short data" },
        rfl, hothers _ fun j => ?_⟩
      cases j <;> first | exact Or.inl rfl | exact Or.inr rfl
  | GCXdai =>
      refine ⟨{ Deployment.externals with decodeXdaiSignature := fun _ => .error "short data" },
        rfl, hothers _ fun j => ?_⟩
      cases j <;> first | exact Or.inl rfl | exact Or.inr rfl

/-- An indexer is wired only if it finds its own mode: any other has another event. -/
theorem IndexerId.modeIn_of_wired (h : i.Wired cfg) : i.modeIn cfg = i.bridgeMode := by
  obtain ⟨j, hj⟩ : ∃ j : IndexerId, i.modeIn cfg = j.bridgeMode := i.exists_modeIn
  by_cases hij : j = i
  · rw [hj, hij]
  · exfalso
    have hdecodes : cfg.Decodes j.bridgeMode i.bridgeMode.event := by
      rw [← hj, ← i.event_name_eq cfg]
      exact h.decodes
    let log : Log := ⟨.repeatByte 20 0, [], []⟩
    obtain ⟨lib, hfails, hothers⟩ := i.exists_undecodable log
    have hj' := (hdecodes.unique (decodes_bridgeMode j) lib log "short data").mp hfails
    rw [hothers j hij] at hj'
    cases hj'

/-- **Chain wiring.** The four indexers are wired to their own chains, and to the
decoders of their own events, exactly when the four bridge addresses differ. -/
theorem wired_iff_nodup (cfg : Config) :
    (∀ i : IndexerId, i.Wired cfg) ↔ cfg.bridgeAddresses.Nodup := by
  constructor
  · intro h
    have hinj : Function.Injective fun i : IndexerId => (i.indexer cfg).contract_address := by
      intro i j hij
      apply IndexerId.bridgeMode_injective
      calc i.bridgeMode = i.modeIn cfg := (IndexerId.modeIn_of_wired (h i)).symm
        _ = j.modeIn cfg := congrArg (EventIndexer.checkBridgeMode · cfg) hij
        _ = j.bridgeMode := IndexerId.modeIn_of_wired (h j)
    have hids : [IndexerId.ETHAmb, .GCAmb, .ETHXdai, .GCXdai].Nodup := by decide
    exact hids.map hinj
  · intro h i
    exact IndexerId.wired_of_modeIn (IndexerId.modeIn_of_nodup h i)

/-- The AMB bridge at one address on both chains. -/
def oneAmbAddress : Config :=
  { Deployment.config with gc_amb_bridge_address := Deployment.config.eth_amb_bridge_address }

/-- There the indexer with the Gnosis provider takes itself to be on Ethereum, and
Ethereum's endpoints bound the Gnosis blocks it reads. -/
theorem gc_indexer_is_on_eth :
    ¬ ∀ (cfg : Config) (i : IndexerId), i.Wired cfg := by
  intro hclaim
  have hchain : (IndexerId.GCAmb.indexer oneAmbAddress).chain = .gc :=
    (hclaim oneAmbAddress .GCAmb).chain
  have heth : (IndexerId.GCAmb.indexer oneAmbAddress).chain = .eth := by decide
  rw [heth] at hchain
  cases hchain

end BridgeValidator
