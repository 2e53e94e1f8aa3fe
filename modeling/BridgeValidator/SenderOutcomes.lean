import BridgeValidator.SenderEvidence

/-!
# How a message ends

Which rounds of the sender neither delete nor release the row they work on,
given that the database executes every statement.
-/

namespace BridgeValidator

open Interaction

namespace OnChainSender

variable {lib : Externals} {cfg : Config} {msg : OnChainCallData} {seen seen' : Trace Calls}

/-! ## Outcomes -/

/-- The flag that sends a message on to the foreign chain. -/
def executeOnForeignFlag (cfg : Config) : OnChainCallData → String
  | .XdaiGc .. => cfg.xdai_execute_message_on_foreign
  | _ => cfg.amb_execute_message_on_foreign

/-- The row is deleted or released. -/
def settles (id : Int) : Event Calls → Bool
  | ⟨.db (.deleteEventLog id'), _⟩ => id' == id
  | ⟨.db (.incrementRetryCount id'), _⟩ => id' == id
  | _ => false

/-- Every statement is executed. -/
def DbSucceeds : (o : Op) → o.Ans → Prop
  | .db _, .error _ => False
  | _, _ => True

/-- The threshold is known, and then the row is at stage `foreign` with the
flag off, or the length of the blob cannot be computed. -/
def Strands (lib : Externals) (cfg : Config) (msg : OnChainCallData) (stage : Stage)
    (tr : Trace Calls) : Prop :=
  ∃ required, GotRequired required tr msg ∧
    (stage = .foreign ∧ executeOnForeignFlag cfg msg ≠ "true" ∨
      (∃ signatures, GotSignatures cfg signatures tr msg) ∧ ¬LengthFits lib required)

instance (o : Op) (x : o.Ans) : Decidable (DbSucceeds o x) := by
  unfold DbSucceeds
  split <;> infer_instance

/-- The row is not settled yet, and nothing stands in the way. -/
structure Pending (lib : Externals) (cfg : Config) (msg : OnChainCallData) (id : Int)
    (stage : Stage) (seen : Trace Calls) : Prop where
  count : seen.countP (settles id) = 0
  goes : ¬Strands lib cfg msg stage seen

/-- How `process_message` ends: the row settled once, or still to be released
by the caller, or stranded. -/
def Ends (lib : Externals) (cfg : Config) (msg : OnChainCallData) (id : Int) (stage : Stage)
    (tr : Trace Calls) : Except (Exit BridgeValidatorError) Unit → Prop
  | .ok () => tr.countP (settles id) = 1 ∧ ¬Strands lib cfg msg stage tr ∨
      tr.countP (settles id) = 0 ∧ Strands lib cfg msg stage tr
  | .error (.error _) => Pending lib cfg msg id stage tr
  | .error (.panic _) => Strands lib cfg msg stage tr

section

variable {id : Int} {stage : Stage} {signer : PrivateKeySigner} {bridge : Bridge}
  {key : Option String} {var : String} {contract_address : Address} {hash_msg : B256}

theorem strands_congr (h : ∀ call a, (⟨.rpc (.view call), .ok a⟩ : Event Calls) ∈ seen' ↔
      ⟨.rpc (.view call), .ok a⟩ ∈ seen) :
    Strands lib cfg msg stage seen' ↔ Strands lib cfg msg stage seen := by
  cases msg <;> simp only [Strands, GotRequired, GotSignatures, h]

theorem not_strands_of_fresh
    (hflag : stage = .foreign → executeOnForeignFlag cfg msg = "true")
    (hfresh : ∀ e ∈ seen, blobAnswer e = none) : ¬Strands lib cfg msg stage seen := by
  rintro ⟨required, -, ⟨hstage, hne⟩ | ⟨⟨signatures, hgot⟩, -⟩⟩
  · exact hne (hflag hstage)
  · obtain ⟨e, he, hanswer⟩ := hgot.answer
    rw [hfresh e he] at hanswer
    cases hanswer

theorem not_strands_of_not_asked (h : ∀ e ∈ seen, requiredAnswer e = none) :
    ¬Strands lib cfg msg stage seen := by
  rintro ⟨required, hgot, -⟩
  obtain ⟨e, he, hanswer⟩ := hgot.answer
  rw [h e he] at hanswer
  cases hanswer

theorem Pending.snoc (h : Pending lib cfg msg id stage seen) {e : Event Calls}
    (hview : ∀ call a, e ≠ ⟨.rpc (.view call), .ok a⟩) (hsettles : settles id e = false) :
    Pending lib cfg msg id stage (seen ++ [e]) := by
  refine ⟨?_, ?_⟩
  · rw [List.countP_append, h.count, List.countP_singleton, hsettles]
    rfl
  · have hviews : ∀ call a, (⟨.rpc (.view call), .ok a⟩ : Event Calls) ∈ seen ++ [e] ↔
        ⟨.rpc (.view call), .ok a⟩ ∈ seen := by
      intro call a
      simp [(hview call a).symm]
    exact mt (strands_congr hviews).mp h.goes

/-- The settling statement itself. -/
theorem Pending.settled (h : Pending lib cfg msg id stage seen) {e : Event Calls}
    (hview : ∀ call a, e ≠ ⟨.rpc (.view call), .ok a⟩) (hsettles : settles id e = true) :
    Ends lib cfg msg id stage (seen ++ [e]) (.ok ()) := by
  left
  refine ⟨?_, ?_⟩
  · rw [List.countP_append, h.count, List.countP_singleton, hsettles]
    rfl
  · have hviews : ∀ call a, (⟨.rpc (.view call), .ok a⟩ : Event Calls) ∈ seen ++ [e] ↔
        ⟨.rpc (.view call), .ok a⟩ ∈ seen := by
      intro call a
      simp [(hview call a).symm]
    exact mt (strands_congr hviews).mp h.goes

theorem Ends.iff {tr : Trace Calls} (h : Ends lib cfg msg id stage tr (.ok ())) :
    tr.countP (settles id) = 1 ↔ ¬Strands lib cfg msg stage tr := by
  rcases h with ⟨hcount, hgoes⟩ | ⟨hcount, hstrands⟩
  · exact ⟨fun _ => hgoes, fun _ => hcount⟩
  · constructor
    · intro hone
      rw [hcount] at hone
      cases hone
    · intro hno
      exact absurd hstrands hno

theorem ends_deleteEventLog (h : Pending lib cfg msg id stage seen) :
    Act.Follows (recording DbSucceeds) seen (deleteEventLog id) (Ends lib cfg msg id stage) := by
  refine follows_sql.mpr ⟨trivial, fun _ _ => h.settled (by simp) (by simp [settles]), ?_⟩
  intro e hadm
  exact hadm.elim

theorem ends_incrementRetryCount (h : Pending lib cfg msg id stage seen) :
    Act.Follows (recording DbSucceeds) seen (incrementRetryCount id)
      (Ends lib cfg msg id stage) := by
  refine follows_sql.mpr ⟨trivial, fun _ _ => h.settled (by simp) (by simp [settles]), ?_⟩
  intro e hadm
  exact hadm.elim

theorem ends_andReturn {p : Action Unit}
    (h : Act.Follows (recording DbSucceeds) seen p (Ends lib cfg msg id stage)) :
    Act.Follows (recording DbSucceeds) seen (do p; return) (Ends lib cfg msg id stage) := by
  refine Act.follows_bind.mpr (h.mono ?_)
  rintro seen (_ | _) hseen <;> exact hseen

theorem ends_connect {url : String} {f : Unit → Action Unit}
    (h : Pending lib cfg msg id stage seen)
    (hok : Pending lib cfg msg id stage (seen ++ [⟨.rpc (.connect url), .ok ()⟩]) →
      Act.Follows (recording DbSucceeds) (seen ++ [⟨.rpc (.connect url), .ok ()⟩]) (f ())
        (Ends lib cfg msg id stage)) :
    Act.Follows (recording DbSucceeds) seen (connect url >>= f) (Ends lib cfg msg id stage) :=
  Act.follows_bind.mpr (follows_connect.mpr ⟨trivial, fun _ _ => hok (h.snoc (by simp) rfl),
    fun _ _ => h.snoc (by simp) rfl⟩)

theorem ends_view {call : ViewCall} {f : call.Ret → Action Unit}
    (h : Pending lib cfg msg id stage seen)
    (hok : ∀ a, (seen ++ [(⟨.rpc (.view call), .ok a⟩ : Event Calls)]).countP (settles id) = 0 →
      Act.Follows (recording DbSucceeds) (seen ++ [⟨.rpc (.view call), .ok a⟩]) (f a)
        (Ends lib cfg msg id stage)) :
    Act.Follows (recording DbSucceeds) seen (view call >>= f) (Ends lib cfg msg id stage) := by
  refine Act.follows_bind.mpr (follows_view.mpr ⟨trivial, fun a _ => hok a ?_, fun e _ => ?_⟩)
  · rw [List.countP_append, h.count]
    rfl
  · exact h.snoc (by rintro _ _ ⟨⟩) rfl

theorem ends_sendThenDelete {call : TxCall} (h : Pending lib cfg msg id stage seen) :
    Act.Follows (recording DbSucceeds) seen (sendThenDelete lib signer call id)
      (Ends lib cfg msg id stage) := by
  refine Act.follows_bind.mpr (follows_await.mpr ⟨trivial, ?_⟩)
  rintro (e | tx) -
  · exact ends_incrementRetryCount (h.snoc (by simp) rfl)
  · refine Act.follows_bind.mpr (follows_await.mpr ⟨trivial, ?_⟩)
    have hsent : Pending lib cfg msg id stage
        (seen ++ [⟨.rpc (.send id (lib.signerAddress signer) call), .ok tx⟩]) :=
      h.snoc (by simp) rfl
    rintro (e | receipt) -
    · exact ends_incrementRetryCount (hsent.snoc (by simp) rfl)
    · exact ends_deleteEventLog (hsent.snoc (by simp) rfl)

theorem ends_affirm {call : TxCall} (h : ∀ seen, ¬Strands lib cfg msg stage seen) :
    Act.Follows (recording DbSucceeds) []
      (affirm lib cfg bridge key var contract_address hash_msg call id)
      (Ends lib cfg msg id stage) := by
  refine Act.follows_bind.mpr (follows_loadSigner.mpr ⟨fun _ => ⟨rfl, h _⟩,
    fun _ _ => ⟨fun signer _ => ?_, fun _ _ => ⟨rfl, h _⟩⟩⟩)
  refine ends_connect ⟨rfl, h _⟩ fun hseen => ?_
  refine ends_view hseen fun already_affirmed hcount => ?_
  have hseen := Pending.mk hcount (h _)
  refine Act.follows_ite.mpr ⟨fun _ => ends_andReturn (ends_deleteEventLog hseen), fun _ => ?_⟩
  refine ends_view hseen fun signed hcount => ?_
  refine ends_view ⟨hcount, h _⟩ fun required hcount => ?_
  have hseen := Pending.mk hcount (h _)
  exact Act.follows_ite.mpr ⟨fun _ => ends_andReturn (ends_deleteEventLog hseen),
    fun _ => ends_sendThenDelete hseen⟩

theorem ends_executeOnForeign {required : U256} {signatures : Bytes} {call : TxCall}
    (hcount : seen.countP (settles id) = 0)
    (hflag : stage = .foreign → executeOnForeignFlag cfg msg = "true")
    (h : Collected cfg msg required signatures seen) :
    Act.Follows (recording DbSucceeds) seen
      (executeOnForeign lib cfg signer required signatures call id)
      (Ends lib cfg msg id stage) := by
  unfold executeOnForeign
  by_cases hfits : LengthFits lib required
  · have hseen : Pending lib cfg msg id stage seen := by
      refine ⟨hcount, ?_⟩
      rintro ⟨r, hr, ⟨hstage, hne⟩ | ⟨⟨b, hb⟩, hno⟩⟩
      · exact hne (hflag hstage)
      · obtain ⟨rfl, rfl⟩ := h.unique r b hr hb
        exact hno hfits
    rw [expectedSignaturesLen_eq hfits, Act.pure_andThen, Act.pure_andThen]
    exact Act.follows_ite.mpr ⟨fun _ => ends_connect hseen ends_sendThenDelete,
      fun _ => ends_deleteEventLog hseen⟩
  · obtain ⟨m, hm⟩ := expectedSignaturesLen_panics hfits
    rw [hm, Act.panic_andThen]
    exact ⟨required, h.threshold, Or.inr ⟨⟨signatures, h.blob⟩, hfits⟩⟩

theorem ends_ambForeign {contract_address : Address} {calldata : AmbGcCalldata}
    {required : U256} (hcount : seen.countP (settles id) = 0)
    (hflag : stage = .foreign →
      executeOnForeignFlag cfg (.AmbGc contract_address calldata) = "true")
    (h : Asked (.AmbGc contract_address calldata) required seen) :
    Act.Follows (recording DbSucceeds) seen
      (ambForeign lib cfg calldata.message id signer required)
      (Ends lib cfg (.AmbGc contract_address calldata) id stage) :=
  ends_view ⟨hcount, not_strands_of_fresh hflag h.fresh⟩ fun signatures hcount =>
    ends_executeOnForeign hcount hflag (h.collected_amb signatures)

theorem ends_xdaiForeign {contract_address : Address} {calldata : XdaiGcCalldata}
    {required : U256} (hcount : seen.countP (settles id) = 0)
    (hflag : stage = .foreign →
      executeOnForeignFlag cfg (.XdaiGc contract_address calldata) = "true")
    (h : Asked (.XdaiGc contract_address calldata) required seen) :
    Act.Follows (recording DbSucceeds) seen
      (xdaiForeign lib cfg calldata.message id signer required)
      (Ends lib cfg (.XdaiGc contract_address calldata) id stage) := by
  have hseen : Pending lib cfg (.XdaiGc contract_address calldata) id stage seen :=
    ⟨hcount, not_strands_of_fresh hflag h.fresh⟩
  refine Act.follows_bind.mpr (Act.follows_orThrow.mpr ⟨fun parsed hparsed => ?_,
    fun _ _ => hseen⟩)
  refine ends_view hseen fun msg_hash hcount => ?_
  refine ends_view ⟨hcount, not_strands_of_fresh hflag ?_⟩ fun signatures hcount => ?_
  · intro e he
    rcases List.mem_append.mp he with he | he
    · exact h.fresh e he
    · rw [List.mem_singleton.mp he]
      rfl
  · exact ends_executeOnForeign hcount hflag (h.collected_xdai hparsed msg_hash signatures)

theorem ends_signAndExecute (msg : OnChainCallData) {signature message : Bytes}
    {foreign : PrivateKeySigner → U256 → Action Unit}
    (hrequired : ∀ required seen, GotRequired required seen msg ↔
      ⟨.rpc (.view (.requiredSignatures bridge contract_address)), .ok required⟩ ∈ seen)
    (hforeign : ∀ signer required seen, seen.countP (settles id) = 0 →
      (stage = .foreign → executeOnForeignFlag cfg msg = "true") → Asked msg required seen →
      Act.Follows (recording DbSucceeds) seen (foreign signer required)
        (Ends lib cfg msg id stage)) :
    Act.Follows (recording DbSucceeds) []
      (signAndExecute lib cfg bridge key var contract_address signature message
        (executeOnForeignFlag cfg msg) foreign id stage)
      (Ends lib cfg msg id stage) := by
  have hstart : Pending lib cfg msg id stage [] :=
    ⟨rfl, not_strands_of_not_asked (by simp)⟩
  refine Act.follows_bind.mpr (follows_loadSigner.mpr ⟨fun _ => hstart,
    fun _ _ => ⟨fun signer _ => ?_, fun _ _ => hstart⟩⟩)
  refine ends_connect hstart fun hseen => ?_
  refine ends_view hseen fun required hcount => ?_
  by_cases hstage : stage = .foreign
  · rw [if_neg (not_not.mpr hstage)]
    refine Act.follows_ite.mpr ⟨fun hflag => ?_, fun hflag => ?_⟩
    · refine hforeign _ _ _ hcount (fun _ => hflag) ⟨?_, ?_, ?_⟩
      · rw [hrequired]
        simp
      · simp [requiredAnswer]
      · simp [blobAnswer]
    · -- the flag is off: the pass returns and leaves the row as it is
      refine Or.inr ⟨hcount, required, ?_, Or.inl ⟨hstage, hflag⟩⟩
      rw [hrequired]
      simp
  · rw [if_pos hstage]
    have hgoes : ∀ {seen}, (∀ e ∈ seen, blobAnswer e = none) → ¬Strands lib cfg msg stage seen :=
      not_strands_of_fresh fun h => absurd h hstage
    refine ends_view ⟨hcount, hgoes (by simp [blobAnswer])⟩ fun signed hcount => ?_
    have hseen : Pending lib cfg msg id stage _ := ⟨hcount, hgoes (by simp [blobAnswer])⟩
    refine Act.follows_ite.mpr ⟨fun _ => ends_andReturn (ends_deleteEventLog hseen), fun _ => ?_⟩
    refine ends_view hseen fun already_signed_by_validator hcount => ?_
    have hseen : Pending lib cfg msg id stage _ := ⟨hcount, hgoes (by simp [blobAnswer])⟩
    refine Act.follows_ite.mpr ⟨fun _ => ends_andReturn (ends_deleteEventLog hseen), fun _ => ?_⟩
    refine Act.follows_bind.mpr (Act.follows_attempt.mpr (follows_submitSignature.mpr
      ⟨trivial, fun tx _ => ⟨trivial, fun receipt _ => ?_, fun e _ => ?_⟩, fun e _ => ?_⟩))
    · refine Act.follows_ite.mpr ⟨fun herr => Bool.noConfusion herr, fun _ => ?_⟩
      refine Act.follows_ite.mpr ⟨fun _ => ?_, fun hflag => ?_⟩
      · exact ends_andReturn (ends_deleteEventLog
          ((hseen.snoc (by simp) rfl).snoc (by simp) rfl))
      · refine Act.follows_bind.mpr (follows_sql.mpr ⟨trivial, fun _ _ => ?_,
          fun _ hadm => hadm.elim⟩)
        refine Act.follows_ite.mpr ⟨fun _ => ?_, fun hne => absurd (not_not.mp hflag) hne⟩
        refine hforeign _ _ _ ?_ (fun h => absurd h hstage) ⟨?_, ?_, ?_⟩
        · exact (((hseen.snoc (by simp) rfl).snoc (by simp) rfl).snoc (by simp) rfl).count
        · rw [hrequired]
          simp [recording]
        · simp [recording, requiredAnswer]
        · simp [recording, blobAnswer]
    · refine Act.follows_ite.mpr ⟨fun _ => ?_, fun hok => absurd rfl hok⟩
      exact ends_andReturn (ends_incrementRetryCount
        ((hseen.snoc (by simp) rfl).snoc (by simp) rfl))
    · refine Act.follows_ite.mpr ⟨fun _ => ?_, fun hok => absurd rfl hok⟩
      exact ends_andReturn (ends_incrementRetryCount (hseen.snoc (by simp) rfl))

theorem ends_processMessage :
    Act.Follows (recording DbSucceeds) [] (processMessage lib cfg msg id stage)
      (Ends lib cfg msg id stage) := by
  cases msg with
  | AmbEth | XdaiEth =>
      apply ends_affirm
      rintro seen ⟨required, hgot, -⟩
      exact hgot
  | AmbGc contract_address calldata =>
      refine ends_signAndExecute (.AmbGc contract_address calldata) (fun _ _ => Iff.rfl) ?_
      intro signer required seen hcount hflag h
      exact ends_ambForeign hcount hflag h
  | XdaiGc contract_address calldata =>
      refine ends_signAndExecute (.XdaiGc contract_address calldata) (fun _ _ => Iff.rfl) ?_
      intro signer required seen hcount hflag h
      exact ends_xdaiForeign hcount hflag h

end

/-- What the round makes of it: an error is answered by a release. -/
theorem ends_handle {data : SenderData} :
    Act.Follows (recording DbSucceeds) [] (handle lib cfg data) fun tr result =>
      (result = .ok () ∧ tr.countP (settles data.event_log_id) = 1) ↔
        ¬Strands lib cfg data.on_chain_calldata data.stage tr := by
  refine Act.follows_bind.mpr (Act.follows_attempt.mpr (ends_processMessage.mono ?_))
  rintro tr ((e | m) | _) h
  · -- an error left the row as it was: it is released here
    refine Act.follows_bind.mpr (Act.follows_attempt.mpr (follows_sql.mpr
      ⟨trivial, fun _ _ => ?_, fun _ hadm => hadm.elim⟩))
    have hsettled := h.settled (e := ⟨.db (.incrementRetryCount data.event_log_id), .ok ()⟩)
      (by simp) (by simp [settles])
    exact (and_iff_right rfl).trans hsettled.iff
  · constructor
    · rintro ⟨hok, -⟩
      cases hok
    · intro hno
      exact absurd h hno
  · exact (and_iff_right rfl).trans h.iff

/-- **How a message ends.** With every statement executed, the round returns
having deleted or released the row exactly once, unless the message strands. -/
theorem settled_once_iff_not_strands {data : SenderData} {tr : Trace Calls}
    {result : Except (Exit BridgeValidatorError) Unit} (hr : (handle lib cfg data).Runs tr result)
    (hdb : ∀ e ∈ tr, DbSucceeds e.op e.ans) :
    (result = .ok () ∧ tr.countP (settles data.event_log_id) = 1) ↔
      ¬Strands lib cfg data.on_chain_calldata data.stage tr :=
  follows_recording ends_handle hr hdb

/-- A round over a signed message at stage `foreign`, under this setting of the
flag. -/
def foreignRound (flag : String) : Trace Calls × Except (Exit BridgeValidatorError) Unit :=
  Deployment.runAlone (Deployment.relay true)
    (handle Deployment.externals
      { Deployment.config with amb_execute_message_on_foreign := flag }
      { on_chain_calldata := .AmbGc (.repeatByte 20 0x12) { signature := [], message := [1, 2, 3] }
        event_log_id := 1, stage := .foreign })

/-- With the flag on, the message is executed and its row deleted. -/
theorem settled_once_iff_not_strands_executed :
    (foreignRound "true").1.any
      (fun e => e.op matches .rpc (.send _ _ (.safeExecuteSignaturesWithAutoGasLimit ..))) = true ∧
    ¬Strands Deployment.externals Deployment.config
      (.AmbGc (.repeatByte 20 0x12) { signature := [], message := [1, 2, 3] }) .foreign
      (foreignRound "true").1 := by
  have hr := Deployment.runAlone_runs (Deployment.relay true)
    (handle Deployment.externals Deployment.config
      { on_chain_calldata := .AmbGc (.repeatByte 20 0x12) { signature := [], message := [1, 2, 3] }
        event_log_id := 1, stage := .foreign })
  have hdb : ∀ e ∈ (foreignRound "true").1, DbSucceeds e.op e.ans := by decide +kernel
  have hsettled : (foreignRound "true").2 = .ok () ∧
      (foreignRound "true").1.countP (settles 1) = 1 := by decide +kernel
  exact ⟨by decide +kernel, (settled_once_iff_not_strands hr hdb).mp hsettled⟩

/-- With the flag off, the round returns and the row stays as it is: claimed. -/
theorem foreign_row_left_claimed :
    ¬ ∀ (lib : Externals) (cfg : Config) (data : SenderData) (tr : Trace Calls)
      (result : Except (Exit BridgeValidatorError) Unit), (handle lib cfg data).Runs tr result →
      (∀ e ∈ tr, DbSucceeds e.op e.ans) → tr.countP (settles data.event_log_id) = 1 := by
  intro hclaim
  have hr := Deployment.runAlone_runs (Deployment.relay true)
    (handle Deployment.externals
      { Deployment.config with amb_execute_message_on_foreign := "false" }
      { on_chain_calldata := .AmbGc (.repeatByte 20 0x12) { signature := [], message := [1, 2, 3] }
        event_log_id := 1, stage := .foreign })
  have hdb : ∀ e ∈ (foreignRound "false").1, DbSucceeds e.op e.ans := by decide +kernel
  have hnone : (foreignRound "false").1.countP (settles 1) = 0 := by decide +kernel
  have hone : (foreignRound "false").1.countP (settles 1) = 1 := hclaim _ _ _ _ _ hr hdb
  rw [hnone] at hone
  cases hone

end OnChainSender

end BridgeValidator
