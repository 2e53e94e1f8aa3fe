import BridgeValidator.ForeignLeg
import BridgeValidator.RetryCeiling

/-!
# One transaction on a chain for one claim

A pass over a row sends at most one transaction to the home chain and at most one to the
foreign chain. A pass needs a claim of its own, so over any run the transactions for a
row are no more than its claims, and where the retry ceiling stays, no more than that.
-/

namespace BridgeValidator

open Interaction

variable {W : World} {lib : Externals}

/-! ## One pass -/

/-- A transaction is handed to this chain. -/
def Op.transacts (foreign : Bool) : Op → Bool
  | .rpc (.send _ _ call) => call.executes == foreign
  | _ => false

namespace OnChainSender

/-- At most one transaction for this chain. -/
def oncePerChain (foreign : Bool) : Protocol Calls Bool where
  allows sent o := o.transacts foreign = true → sent = false
  admits _ _ _ := True
  next sent o _ := sent || o.transacts foreign

section

variable {foreign sent : Bool}

@[simp] theorem oncePerChain_send {row : Int} {sender : Address} {call : TxCall} :
    (oncePerChain foreign).allows sent (.rpc (.send row sender call)) ↔
      (call.executes = foreign → sent = false) := by
  show (((call.executes == foreign) = true) → sent = false) ↔ _
  rw [beq_iff_eq]

@[simp] theorem oncePerChain_view {call : ViewCall} :
    (oncePerChain foreign).allows sent (.rpc (.view call)) ↔ True :=
  ⟨fun _ => trivial, fun _ h => Bool.noConfusion h⟩

@[simp] theorem oncePerChain_connect {url : String} :
    (oncePerChain foreign).allows sent (.rpc (.connect url)) ↔ True :=
  ⟨fun _ => trivial, fun _ h => Bool.noConfusion h⟩

@[simp] theorem oncePerChain_getReceipt {tx : Nat} :
    (oncePerChain foreign).allows sent (.rpc (.getReceipt tx)) ↔ True :=
  ⟨fun _ => trivial, fun _ h => Bool.noConfusion h⟩

@[simp] theorem oncePerChain_db {st : Stmt} :
    (oncePerChain foreign).allows sent (.db st) ↔ True :=
  ⟨fun _ => trivial, fun _ h => Bool.noConfusion h⟩

@[simp] theorem oncePerChain_admits {o : Op} {x : o.Ans} :
    (oncePerChain foreign).admits sent o x ↔ True := Iff.rfl

@[simp] theorem oncePerChain_next {o : Op} {x : o.Ans} :
    (oncePerChain foreign).next sent o x = (sent || o.transacts foreign) := rfl

@[simp] theorem transacts_send {row : Int} {sender : Address} {call : TxCall} :
    Op.transacts foreign (.rpc (.send row sender call)) = (call.executes == foreign) := rfl

@[simp] theorem transacts_view {call : ViewCall} :
    Op.transacts foreign (.rpc (.view call)) = false := rfl

@[simp] theorem transacts_connect {url : String} :
    Op.transacts foreign (.rpc (.connect url)) = false := rfl

@[simp] theorem transacts_db {st : Stmt} : Op.transacts foreign (.db st) = false := rfl

@[simp] theorem transacts_getReceipt {tx : Nat} :
    Op.transacts foreign (.rpc (.getReceipt tx)) = false := rfl

end

section

variable {cfg : Config} {id : Int} {stage : Stage} {signer : PrivateKeySigner} {required : U256}
  {foreign sent : Bool}

attribute [local simp] Act.follows_bind Act.follows_pure Act.follows_panic Act.follows_ite
  Act.follows_orThrow Act.follows_attempt follows_await follows_sql follows_view
  follows_connect follows_orErr follows_loadSigner forall_except

theorem once_sendThenDelete {call : TxCall} (hfree : call.executes = foreign → sent = false) :
    Act.Follows (oncePerChain foreign) sent (sendThenDelete lib signer call id)
      fun _ _ => True := by
  simp [sendThenDelete, deleteEventLog, incrementRetryCount]
  exact hfree

theorem once_affirm {bridge : Bridge} {key : Option String} {var : String}
    {contract_address : Address} {hash_msg : B256} {call : TxCall} :
    Act.Follows (oncePerChain foreign) false
      (affirm lib cfg bridge key var contract_address hash_msg call id) fun _ _ => True := by
  have hsend : ∀ signer, Act.Follows (oncePerChain foreign) false
      (sendThenDelete lib signer call id) fun _ _ => True :=
    fun signer => once_sendThenDelete fun _ => rfl
  simp [affirm, deleteEventLog, hsend]

theorem once_executeOnForeign {signatures : Bytes} {call : TxCall}
    (hfree : call.executes = foreign → sent = false) :
    Act.Follows (oncePerChain foreign) sent
      (executeOnForeign lib cfg signer required signatures call id) fun _ _ => True := by
  refine Act.follows_bind.mpr (follows_expectedSignaturesLen (fun expected => ?_)
    fun _ => trivial)
  refine Act.follows_ite.mpr ⟨fun _ => ?_, fun _ => ?_⟩
  · have hsend : Act.Follows (oncePerChain foreign) sent (sendThenDelete lib signer call id)
        fun _ _ => True := once_sendThenDelete hfree
    simp [hsend]
  · exact Act.follows_bind.mpr (follows_expectedSignaturesLen
      (fun _ => by simp [deleteEventLog]) fun _ => trivial)

/-- The submission goes to the home chain, so the foreign one is still free after it. -/
theorem once_signAndExecute {bridge : Bridge} {key : Option String} {var flag : String}
    {contract_address : Address} {signature message : Bytes}
    {leg : PrivateKeySigner → U256 → Action Unit}
    (hleg : ∀ signer required sent, (foreign = true → sent = false) →
      Act.Follows (oncePerChain foreign) sent (leg signer required) fun _ _ => True) :
    Act.Follows (oncePerChain foreign) false
      (signAndExecute lib cfg bridge key var contract_address signature message flag leg id stage)
      fun _ _ => True := by
  have hfresh := fun signer required => hleg signer required false fun _ => rfl
  have hsubmitted := fun signer required => hleg signer required
    ((TxCall.submitSignature bridge contract_address signature message).executes == foreign)
    (by rintro rfl; rfl)
  simp [signAndExecute, submitSignature, deleteEventLog, incrementRetryCount, updateStage, hfresh,
    hsubmitted]

theorem once_processMessage {msg : OnChainCallData} :
    Act.Follows (oncePerChain foreign) false (processMessage lib cfg msg id stage)
      fun _ _ => True := by
  have hexec : ∀ signer required sent signatures (call : TxCall), call.executes = true →
      (foreign = true → sent = false) → Act.Follows (oncePerChain foreign) sent
        (executeOnForeign lib cfg signer required signatures call id) fun _ _ => True := by
    intro signer required sent signatures call hcall hsent
    apply once_executeOnForeign
    intro hforeign
    exact hsent (hforeign.symm.trans hcall)
  cases msg with
  | AmbEth contract_address calldata => exact once_affirm
  | XdaiEth contract_address calldata => exact once_affirm
  | AmbGc contract_address calldata =>
      apply once_signAndExecute
      intro signer required sent hsent
      have hcall := fun signatures => hexec signer required sent signatures
        (.safeExecuteSignaturesWithAutoGasLimit cfg.eth_amb_bridge_address calldata.message
          signatures) rfl hsent
      simp [ambForeign, hcall]
  | XdaiGc contract_address calldata =>
      apply once_signAndExecute
      intro signer required sent hsent
      have hcall := fun signatures => hexec signer required sent signatures
        (.executeSignatures cfg.eth_xdai_bridge_address calldata.message signatures) rfl hsent
      simp [xdaiForeign, hcall]

theorem once_send {data : SenderData} :
    Act.Follows (oncePerChain foreign) false (Job.prog lib cfg (.send data))
      fun _ _ => True := by
  have hhandle : Act.Follows (oncePerChain foreign) false (handle lib cfg data)
      fun _ _ => True := by
    refine Act.follows_bind.mpr (Act.follows_attempt.mpr (once_processMessage.mono ?_))
    rintro _ ((e | m) | a) -
    · simp [incrementRetryCount]
    · trivial
    · trivial
  refine Act.follows_bind.mpr (hhandle.mono ?_)
  rintro _ (_ | _) - <;> trivial

end

end OnChainSender

/-! ## What a row still has coming -/

/-- A transaction for the row is handed to this chain. -/
def Label.transacts (id : Int) (foreign : Bool) : Label → Bool
  | .call _ ⟨.rpc (.send row _ txCall), _⟩ => decide (row = id) && (txCall.executes == foreign)
  | _ => false

/-- The round has handed a transaction to this chain. -/
def Running.sentOn (foreign : Bool) (r : Running) : Bool :=
  (OnChainSender.oncePerChain foreign).after false r.trace

namespace Sys

variable {s t : Sys W} {l : Label} {id : Int} {foreign : Bool} {r : Running} {data : SenderData}

/-- The claims of the row on their way to the sender. -/
def coming (s : Sys W) (id : Int) : Nat := (s.waiting.map Claim.id).count id

/-- 1 if the pass over the row has this transaction still before it, else 0. -/
def open? (s : Sys W) (id : Int) (foreign : Bool) : Nat :=
  (s.passOver id).elim 0 fun p => if p.1.sentOn foreign then 0 else 1

/-- A row whose claim is new has just been claimed. -/
theorem Step.claims_of_claimed {row : EventLogRow} {r : EventLog} (hs : s.Coherent lib)
    (hk : s.shared.db.Keyed) (h : s.Step lib l t) (hr : s.row? row.id = some r)
    (hfree : r.is_processed = some false) (hr' : t.row? row.id = some r.claimed) :
    l.claims row.id = true := by
  have hrow := h.rowStep hs hk row.id
  rw [hr'] at hrow
  generalize hafter : some r.claimed = after at hrow
  -- no other write sets the mark
  have hmark : ∀ r₁ : EventLog, s.row? row.id = some r₁ → ∀ r₂ : EventLog,
      some r.claimed = some r₂ → r₂.is_processed = r₁.is_processed ∨
        r₂.is_processed = some false → False := by
    intro r₁ hr₁ r₂ heq hkept
    obtain rfl := Option.some.inj (hr.symm.trans hr₁)
    obtain rfl := Option.some.inj heq
    rw [hfree, or_self] at hkept
    cases hkept
  cases hrow with
  | same _ =>
      exfalso
      exact hmark r hr r (hafter.trans hr) (Or.inl rfl)
  | inserted hid => exact absurd hid (hk.lt_next_of_row? hr).ne
  | claimed hr₁ _ =>
      obtain rfl := Option.some.inj (hr.symm.trans hr₁)
      show decide (r.id = row.id) = true
      rw [Db.row?_id hr]
      exact decide_eq_true rfl
  | staged hr₁ _ _ => exact (hmark _ hr₁ _ hafter (Or.inl rfl)).elim
  | released hr₁ _ _ => exact (hmark _ hr₁ _ hafter (Or.inr rfl)).elim
  | deleted => cases hafter
  | checked hr₁ _ _ => exact (hmark _ hr₁ _ hafter (Or.inl rfl)).elim

/-- Only a claim adds to what is coming. -/
theorem Step.coming_le (hs : s.Coherent lib) (hk : s.shared.db.Keyed) (h : s.Step lib l t) :
    t.coming id ≤ (if l.claims id then 1 else 0) + s.coming id := by
  cases h.move hs hk with
  | quiet hw hh hrow =>
      apply Nat.le_add_left_of_le
      exact Multiset.count_le_of_le id (Multiset.map_le_map hw)
  | @claim row r hw hh hr hrow hfree hr' hother =>
      have hclaims := h.claims_of_claimed hs hk hr hfree hr'
      rw [coming, coming, hw, Multiset.map_cons, Multiset.count_cons]
      show _ + (if id = row.id then 1 else 0) ≤ _
      by_cases hid : id = row.id
      · subst hid
        rw [if_pos rfl, if_pos hclaims, Nat.add_comm]
      · rw [if_neg hid, Nat.add_zero]
        exact Nat.le_add_left _ _
  | @handOver row data rest hw hw' hd hh hrow =>
      apply Nat.le_add_left_of_le
      have hid : data.claim.id = row.claim.id := hd.id
      rw [coming, coming, hw, hw', Multiset.map_cons, Multiset.map_cons, hid]
  | recv hw hh hh' hrow =>
      apply Nat.le_add_left_of_le
      rw [coming, coming, hw]
      exact Multiset.count_le_of_le id (Multiset.map_le_map (Multiset.le_cons_self _ _))
  | stage hw hh hh' hrow hother => simp [coming, hw]
  | settle hw hh hh' hrow hother => simp [coming, hw]

/-- The pass that begins uses up what was coming. -/
theorem coming_recv {rest : List SenderData} (hidle : s.idle .on_chain_sender)
    (hch : s.shared.channel = data :: rest) :
    s.coming id = (s.popChannel.begin lib (.send data)).coming id +
      if id = data.event_log_id then 1 else 0 := by
  have hpop : s.popChannel.running (Job.service (.send data)) = none := hidle.1
  have hcl : ∀ k, (s.popChannel.begin lib (.send data)).claimed k = s.claimed k :=
    claimed_begin hpop
  have hrest : (s.popChannel.begin lib (.send data)).shared.channel = rest := by
    simp [Sys.begin, popChannel, hch]
  have hw : s.waiting = data.claim ::ₘ (s.popChannel.begin lib (.send data)).waiting := by
    simp only [waiting, hcl, hrest, hch, List.map_cons, ← Multiset.cons_coe]
    rw [Multiset.add_cons]
  rw [coming, coming, hw, Multiset.map_cons, Multiset.count_cons]
  rfl

theorem open?_of_passOver (h : s.passOver id = some (r, data)) :
    s.open? id foreign = if r.sentOn foreign then 0 else 1 := by
  rw [open?, h]
  rfl

theorem open?_le_one : s.open? id foreign ≤ 1 := by
  unfold open?
  cases s.passOver id with
  | none => exact Nat.zero_le _
  | some p =>
      show (if p.1.sentOn foreign then 0 else 1) ≤ 1
      split <;> simp

theorem open?_congr (h : t.running .on_chain_sender = s.running .on_chain_sender) :
    t.open? id foreign = s.open? id foreign := by
  rw [open?, open?, passOver_congr h]

theorem open?_of_idle (h : s.running .on_chain_sender = none) : s.open? id foreign = 0 := by
  rw [open?, passOver, h]
  rfl

theorem exists_of_transacts {v : Service} {o : Op} {x : o.Ans}
    (h : (Label.call v ⟨o, x⟩).transacts id foreign = true) :
    o.transacts foreign = true ∧ ∃ sender call, o = .rpc (.send id sender call) := by
  cases o with
  | rpc rq =>
      cases rq with
      | send row sender call =>
          obtain ⟨hrow, hcall⟩ := (Bool.and_eq_true _ _).mp h
          obtain rfl := of_decide_eq_true hrow
          exact ⟨hcall, sender, call, rfl⟩
      | _ => cases h
  | _ => cases h

/-- A call of the sender uses up the pass over the row if it is the transaction. -/
theorem open?_advance {o : Op} {x : o.Ans} {rest : Action (Option Nat)} {sh : Shared W}
    {k : o.Ans → Prog Calls (Except (Exit BridgeValidatorError) (Option Nat))}
    (hs : s.Coherent lib) (hr : s.running .on_chain_sender = some r)
    (hrest : r.rest = Prog.call o k) :
    (if (Label.call .on_chain_sender ⟨o, x⟩).transacts id foreign then 1 else 0) +
        (s.advance .on_chain_sender r ⟨o, x⟩ rest sh).open? id foreign ≤ s.open? id foreign := by
  have hservice := (hs _ r hr).1
  cases hjob : r.job with
  | send data =>
      by_cases hid : data.event_log_id = id
      · have hpass : s.passOver id = some (r, data) := passOver_iff.mpr ⟨hr, hjob, hid⟩
        have hafter : (⟨r.job, r.trace ++ [⟨o, x⟩], rest⟩ : Running).sentOn foreign =
            (r.sentOn foreign || o.transacts foreign) := by
          rw [Running.sentOn, Protocol.after_append]
          rfl
        rw [open?_of_passOver hpass, open?_of_passOver (passOver_advance hpass), hafter]
        have hallowed : o.transacts foreign = true → r.sentOn foreign = false :=
          hs.allows hr hrest hjob OnChainSender.once_send
            (Protocol.admitted_of_all _ (fun _ _ _ => trivial) _ _)
        by_cases hl : (Label.call .on_chain_sender ⟨o, x⟩).transacts id foreign = true
        · have hsend := (exists_of_transacts hl).1
          simp [hl, hsend, hallowed hsend]
        · rw [if_neg hl, Nat.zero_add]
          cases r.sentOn foreign <;> simp
          split <;> simp
      · have hl : ¬(Label.call .on_chain_sender ⟨o, x⟩).transacts id foreign = true := by
          intro hl
          obtain ⟨-, sender, call, rfl⟩ := exists_of_transacts hl
          obtain ⟨-, data', hjob', hrow⟩ := hs.sender_allows hr hrest rfl
          rw [hjob] at hjob'
          cases hjob'
          exact hid hrow.symm
        have hnone : (s.advance .on_chain_sender r ⟨o, x⟩ rest sh).passOver id = none := by
          simp [passOver, running_advance_self, hjob, hid]
        rw [if_neg hl, open?, hnone]
        exact Nat.zero_le _
  | _ =>
      rw [hjob] at hservice
      cases hservice

/-- **Every transaction is paid for by a claim.** -/
theorem Step.funded (hs : s.Coherent lib) (hk : s.shared.db.Keyed) (h : s.Step lib l t) :
    (if l.transacts id foreign then 1 else 0) + (t.coming id + t.open? id foreign) ≤
      (if l.claims id then 1 else 0) + (s.coming id + s.open? id foreign) := by
  have hcoming : t.coming id ≤ (if l.claims id then 1 else 0) + s.coming id := h.coming_le hs hk
  have hquiet : (∀ e, l ≠ .call .on_chain_sender e) → l.transacts id foreign = false := by
    intro hl
    by_contra htx
    rw [Bool.not_eq_false] at htx
    cases l with
    | call v e =>
        obtain ⟨o, x⟩ := e
        obtain ⟨-, sender, call, rfl⟩ := exists_of_transacts htx
        obtain ⟨rfl, -⟩ := sender_of_send hs h
        exact hl _ rfl
    | _ => cases htx
  cases h.sender with
  | others hrunning hl =>
      rw [hquiet hl, open?_congr hrunning]
      simp only [Bool.false_eq_true, if_false]
      omega
  | @recv data rest hidle hch =>
      have hopen : (s.popChannel.begin lib (.send data)).open? id foreign ≤
          if id = data.event_log_id then 1 else 0 := by
        by_cases hid : id = data.event_log_id
        · rw [if_pos hid]
          exact open?_le_one
        · have hnone : (s.popChannel.begin lib (.send data)).passOver id = none := by
            simp [passOver, Sys.begin, Job.service, Ne.symm hid]
          rw [if_neg hid, open?, hnone]
          exact le_rfl
      have hpopped : s.coming id = (s.popChannel.begin lib (.send data)).coming id +
          if id = data.event_log_id then 1 else 0 := coming_recv hidle hch
      rw [hquiet (fun e he => by cases he), hpopped, open?_of_idle hidle.1]
      simp only [Bool.false_eq_true, if_false]
      omega
  | @call r o k x sh hr hrest hans =>
      have hcall : _ + (s.advance .on_chain_sender r ⟨o, x⟩ (k x) sh).open? id foreign ≤ _ :=
        open?_advance hs hr hrest
      omega
  | @finish r result hr hrest =>
      have hopen : (s.done .on_chain_sender r.job result).open? id foreign = 0 :=
        open?_of_idle (by simp [Sys.done])
      rw [hquiet (fun e he => by cases he)]
      simp only [Bool.false_eq_true, if_false]
      omega
  | ends hends hrunning =>
      rw [hquiet (fun e he => by subst he; cases hends), open?_of_idle hrunning]
      simp only [Bool.false_eq_true, if_false]
      omega

end Sys

/-- **One transaction on each chain for one claim.** Over a table with ids of its own, in any
interleaving and through any restarts, a row has no more transactions on a chain than it has
claims; over an empty table and under one ceiling, no more than the ceiling. -/
theorem transactions_within_claims {cfg : Config} {db : Db} {w : W.State} {ls : List Label}
    {s : Sys W} (hdb : db.Keyed) (hrun : (system lib W).Run (Sys.boot cfg db w) ls s) (id : Int)
    (foreign : Bool) :
    ls.countP (Label.transacts id foreign) ≤ ls.countP (Label.claims id) ∧
      (db = Db.empty → (∀ l ∈ ls, l.keepsCeiling cfg.retryCeiling = true) →
        (ls.countP (Label.transacts id foreign) : Int) ≤
          min (cfg.max_retry_count : Int) i32Max) := by
  have hclaims : ls.countP (Label.transacts id foreign) ≤ ls.countP (Label.claims id) := by
    have hfunded := hrun.countP_funded (I := fun s => s.Coherent lib ∧ s.shared.db.Keyed)
      (p := Label.transacts id foreign) (q := Label.claims id)
      ⟨Sys.coherent_boot, hdb⟩ fun s l t h hstep =>
        ⟨⟨h.1.step hstep, hstep.keyed h.2⟩, hstep.funded h.1 h.2⟩
    have hnone : (Sys.boot cfg db w).coming id + (Sys.boot cfg db w).open? id foreign = 0 := rfl
    omega
  refine ⟨hclaims, ?_⟩
  rintro rfl hkeeps
  have hpaid := (Sys.within_of_run (hrun.guarded_of_labels hkeeps)).2.drawn id
  have hpos := cfg.retryCeiling_pos
  rw [← cfg.retryCeiling_eq]
  omega

open Deployment in
/-- A signature and the execution of the same message, for one claim. -/
theorem transactions_within_claims_executed :
    ∃ (s : Sys (World.chains externals)) (ls : List Label),
      (system externals (World.chains externals)).Run (Sys.boot config Db.empty []) ls s ∧
      ∀ foreign, ls.countP (Label.transacts 1 foreign) = 1 ∧ 1 ≤ ls.countP (Label.claims 1) ∧
        (ls.countP (Label.transacts 1 foreign) : Int) ≤
          min (config.max_retry_count : Int) i32Max := by
  have hboot : (Sys.boot config Db.empty [] : Sys (World.chains externals)).Resting :=
    Sys.resting_boot
  have hsound : ∀ turn ∈ [Turn.index .GCAmb (chains (.ok (List.replicate 131 0)) true),
      .process .msg_processor_1 (chains (.ok (List.replicate 131 0)) true),
      .send (chains (.ok (List.replicate 131 0)) true)], turn.Sound := by
    simp [Turn.Sound, chains_truthful]
  obtain ⟨ls, s, hrun, -, hp⟩ := Turn.exists_of_playAll _
    (fun q => q.1.countP (Label.transacts 1 false) == 1 &&
      q.1.countP (Label.transacts 1 true) == 1 && q.1.all (Label.keepsCeiling config.retryCeiling))
    hsound hboot (show (Turn.playAll externals _ _).any _ = true by decide +kernel)
  simp only [Bool.and_eq_true, beq_iff_eq, List.all_eq_true] at hp
  obtain ⟨⟨hhome, hforeign⟩, hkeeps⟩ := hp
  have hone : ∀ foreign, ls.countP (Label.transacts 1 foreign) = 1 := by
    rintro (_ | _)
    · exact hhome
    · exact hforeign
  refine ⟨s, ls, hrun, fun foreign => ⟨hone foreign, ?_⟩⟩
  obtain ⟨hclaims, hceiling⟩ := transactions_within_claims Db.keyed_empty hrun 1 foreign
  exact ⟨(hone foreign) ▸ hclaims, hceiling rfl hkeeps⟩

end BridgeValidator
