import BridgeValidator.ForeignLeg
import BridgeValidator.RowSteps

/-!
# Stage resumption

The stage of a row is read when the row is claimed, travels with the message and is
acted on by the sender. What the sender knows of it stays right, because only the
sender changes it and only in a pass over the row. So a row that has come to stage
`foreign` is never submitted again.
-/

namespace BridgeValidator

open Interaction

/-- A `submitSignature`. -/
def TxCall.isSubmission : TxCall → Bool
  | .submitSignature .. => true
  | _ => false

namespace OnChainSender

/-! ## One pass -/

/-- The stage has been written. -/
def writesStage : Event Calls → Bool
  | ⟨.db (.updateStage ..), .ok _⟩ => true
  | _ => false

def HasStaged (seen : Trace Calls) : Bool := seen.any writesStage

/-- The pass is at home: it was not claimed at stage `foreign` and has not come there. -/
def AtHome (data : SenderData) (seen : Trace Calls) : Prop :=
  data.stage ≠ .foreign ∧ HasStaged seen = false

/-- The last thing seen is a receipt for a `submitSignature` that was sent for the row. -/
def SubmissionMined (data : SenderData) (seen : Trace Calls) : Prop :=
  ∃ before signer bridge contract_address signature message tx receipt, seen = before ++
    [⟨.rpc (.send data.event_log_id signer
        (.submitSignature bridge contract_address signature message)), .ok tx⟩,
      ⟨.rpc (.getReceipt tx), .ok receipt⟩] ∧
    IsAttestation (.submitSignature bridge contract_address signature message)
      data.on_chain_calldata

theorem submissionMined {data : SenderData} {signer : Address} {bridge : Bridge}
    {contract_address : Address} {signature message : Bytes} {tx : Nat} {receipt : Receipt}
    {seen : Trace Calls}
    (hcall : IsAttestation (.submitSignature bridge contract_address signature message)
      data.on_chain_calldata) :
    SubmissionMined data (seen ++ [⟨.rpc (.send data.event_log_id signer
      (.submitSignature bridge contract_address signature message)), .ok tx⟩] ++
        [⟨.rpc (.getReceipt tx), .ok receipt⟩]) :=
  ⟨seen, signer, bridge, contract_address, signature, message, tx, receipt,
    List.append_assoc _ _ _, hcall⟩

/-- A message that needs signatures, with its flag on. -/
def GoesForeign (cfg : Config) (mode : BridgeMode) : Prop :=
  (mode = .AMB_GC ∨ mode = .XDAI_GC) ∧ executeOnForeignFlagOf cfg mode = "true"

/-- Submissions are sent at home only, and the stage is changed once, after one of
them was mined. -/
def staging (cfg : Config) (data : SenderData) : Protocol Calls (Trace Calls) where
  allows seen
    | .rpc (.send _ _ (.submitSignature ..)) => AtHome data seen
    | .db (.updateStage ..) => AtHome data seen ∧
        GoesForeign cfg data.on_chain_calldata.bridgeMode ∧ SubmissionMined data seen
    | _ => True
  admits _ _ _ := True
  next seen o x := seen ++ [⟨o, x⟩]

section

variable {cfg : Config} {data : SenderData} {seen : Trace Calls}

@[simp] theorem staging_view {call : ViewCall} :
    (staging cfg data).allows seen (.rpc (.view call)) ↔ True := Iff.rfl

@[simp] theorem staging_connect {url : String} :
    (staging cfg data).allows seen (.rpc (.connect url)) ↔ True := Iff.rfl

@[simp] theorem staging_getReceipt {tx : Nat} :
    (staging cfg data).allows seen (.rpc (.getReceipt tx)) ↔ True := Iff.rfl

@[simp] theorem staging_incrementRetryCount {id : Int} :
    (staging cfg data).allows seen (.db (.incrementRetryCount id)) ↔ True := Iff.rfl

@[simp] theorem staging_deleteEventLog {id : Int} :
    (staging cfg data).allows seen (.db (.deleteEventLog id)) ↔ True := Iff.rfl

@[simp] theorem staging_admits {o : Op} {x : o.Ans} :
    (staging cfg data).admits seen o x ↔ True := Iff.rfl

/-- Other transactions are not of interest here. -/
theorem staging_sends {id : Int} {sender : Address} {call : TxCall}
    (hcall : call.isSubmission = false) :
    (staging cfg data).allows seen (.rpc (.send id sender call)) := by
  cases call with
  | submitSignature => cases hcall
  | _ => trivial

end

section

variable {lib : Externals} {cfg : Config} {data : SenderData} {seen : Trace Calls}
  {contract_address : Address} {signature message : Bytes}

attribute [local simp] Act.follows_bind Act.follows_pure Act.follows_panic Act.follows_ite
  Act.follows_orThrow Act.follows_attempt follows_await follows_sql follows_view
  follows_connect follows_orErr follows_loadSigner forall_except

theorem staging_sendThenDelete {signer : PrivateKeySigner} {call : TxCall}
    (hcall : call.isSubmission = false) :
    Act.Follows (staging cfg data) seen (sendThenDelete lib signer call data.event_log_id)
      fun _ _ => True := by
  simp [sendThenDelete, deleteEventLog, incrementRetryCount, staging_sends hcall]

theorem staging_affirm {bridge : Bridge} {key : Option String} {var : String}
    {hash_msg : B256} {call : TxCall}
    (hcall : call.isSubmission = false) :
    Act.Follows (staging cfg data) seen
      (affirm lib cfg bridge key var contract_address hash_msg call data.event_log_id)
      fun _ _ => True := by
  simp [affirm, deleteEventLog, staging_sendThenDelete hcall]

theorem staging_executeOnForeign {signer : PrivateKeySigner} {required : U256}
    {signatures : Bytes} {call : TxCall}
    (hcall : call.isSubmission = false) :
    Act.Follows (staging cfg data) seen
      (executeOnForeign lib cfg signer required signatures call data.event_log_id)
      fun _ _ => True := by
  refine Act.follows_bind.mpr (follows_expectedSignaturesLen (fun expected => ?_) fun _ => trivial)
  refine Act.follows_ite.mpr ⟨fun _ => ?_, fun _ => ?_⟩
  · exact Act.follows_bind.mpr (follows_connect.mpr ⟨trivial,
      fun _ _ => staging_sendThenDelete hcall, fun _ _ => trivial⟩)
  · refine Act.follows_bind.mpr (follows_expectedSignaturesLen (fun _ => ?_) fun _ => trivial)
    simp [deleteEventLog]

theorem staging_ambForeign {signer : PrivateKeySigner} {required : U256} :
    Act.Follows (staging cfg data) seen
      (ambForeign lib cfg message data.event_log_id signer required) fun _ _ => True := by
  refine Act.follows_bind.mpr (follows_view.mpr ⟨trivial, fun signatures _ => ?_,
    fun _ _ => trivial⟩)
  exact staging_executeOnForeign rfl

theorem staging_xdaiForeign {signer : PrivateKeySigner} {required : U256} :
    Act.Follows (staging cfg data) seen
      (xdaiForeign lib cfg message data.event_log_id signer required) fun _ _ => True := by
  refine Act.follows_bind.mpr (Act.follows_orThrow.mpr ⟨fun parsed _ => ?_, fun _ _ => trivial⟩)
  refine Act.follows_bind.mpr (follows_view.mpr ⟨trivial, fun msg_hash _ => ?_,
    fun _ _ => trivial⟩)
  refine Act.follows_bind.mpr (follows_view.mpr ⟨trivial, fun signatures _ => ?_,
    fun _ _ => trivial⟩)
  exact staging_executeOnForeign rfl

/-- The home part, before anything has been written. -/
theorem staging_signAndExecute {bridge : Bridge} {key : Option String} {var flag : String}
    {foreign : PrivateKeySigner → U256 → Action Unit}
    (hmode : flag = "true" → GoesForeign cfg data.on_chain_calldata.bridgeMode)
    (hcall : IsAttestation (.submitSignature bridge contract_address signature message)
      data.on_chain_calldata)
    (hforeign : ∀ signer required seen, Act.Follows (staging cfg data) seen
      (foreign signer required) fun _ _ => True) :
    Act.Follows (staging cfg data) []
      (signAndExecute lib cfg bridge key var contract_address signature message flag foreign
        data.event_log_id data.stage) fun _ _ => True := by
  refine Act.follows_bind.mpr (follows_loadSigner.mpr ⟨fun _ => trivial,
    fun _ _ => ⟨fun signer _ => ?_, fun _ _ => trivial⟩⟩)
  refine Act.follows_bind.mpr (follows_connect.mpr ⟨trivial, fun _ _ => ?_, fun _ _ => trivial⟩)
  refine Act.follows_bind.mpr (follows_view.mpr ⟨trivial, fun required _ => ?_,
    fun _ _ => trivial⟩)
  simp only
  by_cases hstage : data.stage = .foreign
  · -- claimed at stage foreign: nothing is submitted
    simp [hstage, hforeign]
  · rw [if_pos hstage]
    refine Act.follows_bind.mpr (follows_view.mpr ⟨trivial, fun signed _ => ?_,
      fun _ _ => trivial⟩)
    refine Act.follows_ite.mpr ⟨fun _ => by simp [deleteEventLog], fun _ => ?_⟩
    refine Act.follows_bind.mpr (follows_view.mpr ⟨trivial, fun already_signed _ => ?_,
      fun _ _ => trivial⟩)
    refine Act.follows_ite.mpr ⟨fun _ => by simp [deleteEventLog], fun _ => ?_⟩
    refine Act.follows_bind.mpr (Act.follows_attempt.mpr (follows_submitSignature.mpr
      ⟨⟨hstage, rfl⟩, fun tx _ => ⟨trivial, fun receipt _ => ?_, fun _ _ => ?_⟩, fun _ _ => ?_⟩))
    · refine Act.follows_ite.mpr ⟨fun herr => Bool.noConfusion herr, fun _ => ?_⟩
      refine Act.follows_ite.mpr ⟨fun _ => by simp [deleteEventLog], fun hflag => ?_⟩
      have htrue : flag = "true" := not_not.mp hflag
      refine Act.follows_bind.mpr (follows_sql.mpr ⟨⟨⟨hstage, rfl⟩, hmode htrue, ?_⟩,
        fun _ _ => ?_, fun _ _ => trivial⟩)
      · exact submissionMined hcall
      · exact Act.follows_ite.mpr ⟨fun _ => hforeign _ _ _, fun _ => trivial⟩
    · exact Act.follows_ite.mpr ⟨fun _ => by simp [incrementRetryCount], fun h => absurd rfl h⟩
    · exact Act.follows_ite.mpr ⟨fun _ => by simp [incrementRetryCount], fun h => absurd rfl h⟩

theorem staging_processMessage :
    Act.Follows (staging cfg data) []
      (processMessage lib cfg data.on_chain_calldata data.event_log_id data.stage)
      fun _ _ => True := by
  cases hmsg : data.on_chain_calldata with
  | AmbEth => exact staging_affirm rfl
  | XdaiEth => exact staging_affirm rfl
  | AmbGc =>
      refine staging_signAndExecute (fun hflag => ?_) ?_ fun _ _ _ => staging_ambForeign
      · rw [hmsg]
        exact ⟨Or.inl rfl, hflag⟩
      · rw [hmsg]
        rfl
  | XdaiGc =>
      refine staging_signAndExecute (fun hflag => ?_) ?_ fun _ _ _ => staging_xdaiForeign
      · rw [hmsg]
        exact ⟨Or.inr rfl, hflag⟩
      · rw [hmsg]
        rfl

/-- **A pass over a message follows the staging protocol.** -/
theorem staging_send : Act.Follows (staging cfg data) [] (Job.prog lib cfg (.send data))
    fun _ _ => True := by
  refine Act.follows_bind.mpr (Act.follows_bind.mpr (Act.follows_attempt.mpr
    (staging_processMessage.mono ?_)))
  rintro seen ((e | m) | a) -
  · simp [incrementRetryCount]
  · trivial
  · trivial

end

end OnChainSender

open OnChainSender

variable {W : World} {lib : Externals}

/-! ## What the sender knows -/

/-- The stage of the row, as the pass over it knows it. -/
def Running.stage (r : Running) (data : SenderData) : Stage :=
  if HasStaged r.trace then .foreign else data.stage

theorem OnChainSender.AtHome.stage {r : Running} {data : SenderData} (h : AtHome data r.trace) :
    r.stage data = data.stage := if_neg (Bool.eq_false_iff.mp h.2)

namespace Sys

variable {s t : Sys W} {l : Label} {ls : List Label} {id : Int} {r : Running}
  {data : SenderData} {row row' : EventLog}

/-- A pass over a message makes the calls the staging protocol allows. -/
theorem Coherent.staging_allows (hs : s.Coherent lib) (hpass : s.passOver id = some (r, data))
    {o : Op} {k : o.Ans → Prog Calls (Except (Exit BridgeValidatorError) (Option Nat))}
    (hrest : r.rest = Prog.call o k) : (staging s.config data).allows r.trace o := by
  obtain ⟨hr, hjob, -⟩ := passOver_iff.mp hpass
  have hfollows : Act.Follows (staging s.config data) [] (Job.prog lib s.config (.send data))
      fun _ _ => True := staging_send
  have hallow := hs.allows hr hrest hjob hfollows
    (Protocol.admitted_of_all _ (fun _ _ _ => trivial) _ _)
  rwa [Protocol.after_eq_append (fun _ _ _ => rfl), List.nil_append] at hallow

/-- What becomes of the stage of a row in one step: it is kept, `home` at first, or
written by the sender. -/
theorem RowStep.stage {after : Option EventLog} (h : s.RowStep id l after)
    (hafter : after = some row') :
    (∃ row, s.row? id = some row ∧ row'.stage = row.stage) ∨
    (id = s.shared.db.next_id ∧ row'.stage = some .home) ∨
    (row'.stage = some .foreign ∧
      l = .call .on_chain_sender ⟨.db (.updateStage .foreign id), .ok ()⟩) := by
  cases h with
  | same hfree => exact Or.inl ⟨row', hafter, rfl⟩
  | inserted hnew =>
      obtain rfl := Option.some.inj hafter
      exact Or.inr (Or.inl ⟨hnew, rfl⟩)
  | staged hr =>
      obtain rfl := Option.some.inj hafter
      exact Or.inr (Or.inr ⟨rfl, rfl⟩)
  | claimed hr | released hr | checked hr =>
      obtain rfl := Option.some.inj hafter
      exact Or.inl ⟨_, hr, rfl⟩
  | deleted => cases hafter

/-- The change of stage is seen in the row at once. -/
theorem Step.row?_of_updateStage {v : Service} {stage : Stage} (hk : s.shared.db.Keyed)
    (h : s.Step lib (.call v ⟨.db (.updateStage stage id), .ok ()⟩) t) :
    t.row? id = (s.row? id).map (EventLog.withStage stage) := by
  cases h with
  | call hr hrest hans =>
      cases hans with
      | db hans =>
          have heffect := hans.rowEffect hk id
          exact heffect.trans (if_pos rfl)

/-- Rows are at one of the two stages, and the sender knows at which. -/
structure Staged (lib : Externals) (s : Sys W) : Prop where
  coherent : s.Coherent lib
  owned : s.Owned
  stages : ∀ id row, s.row? id = some row → row.stage = some .home ∨ row.stage = some .foreign
  drawn : ∀ id r data, s.passOver id = some (r, data) → id < s.shared.db.next_id
  knows : ∀ id r data, s.passOver id = some (r, data) → ∀ row, s.row? id = some row →
    row.stage = some (r.stage data)

theorem hasStaged_append {o : Op} {x : o.Ans} {seen : Trace Calls} :
    HasStaged (seen ++ [⟨o, x⟩]) = (HasStaged seen || writesStage ⟨o, x⟩) := by
  simp [HasStaged]

/-- After a call of its own the sender still knows the stage. -/
theorem Staged.knows_after (h : s.Staged lib) {o : Op} {x : o.Ans}
    (hstep : s.Step lib (.call .on_chain_sender ⟨o, x⟩) t) {r₀ : Running}
    (hpass : s.passOver id = some (r₀, data)) (htrace : r.trace = r₀.trace ++ [⟨o, x⟩])
    (hrow' : t.row? id = some row') : row'.stage = some (r.stage data) := by
  have hk := h.owned.keyed
  cases hstaged : writesStage ⟨o, x⟩ with
  | true =>
      -- the row of the pass is the one that is written
      have hforeign : r.stage data = .foreign := by
        rw [Running.stage, htrace, hasStaged_append, hstaged, Bool.or_true, if_pos rfl]
      cases o with
      | db st =>
          cases st with
          | updateStage stage id' =>
              cases x with
              | error e => cases hstaged
              | ok a =>
                  obtain ⟨rfl, p, data', hp, hjob', rfl⟩ :=
                    sender_of_updateStage h.coherent hstep
                  obtain ⟨hr₀, hjob, rfl⟩ := passOver_iff.mp hpass
                  obtain rfl := Option.some.inj (hr₀.symm.trans hp)
                  obtain rfl : data = data' := by simpa [hjob] using hjob'
                  have hwritten := hstep.row?_of_updateStage hk
                  rw [hrow'] at hwritten
                  obtain ⟨row, -, rfl⟩ := Option.map_eq_some_iff.mp hwritten.symm
                  rw [hforeign]
                  rfl
          | _ => cases hstaged
      | _ => cases hstaged
  | false =>
      have hsame : r.stage data = r₀.stage data := by
        rw [Running.stage, Running.stage, htrace, hasStaged_append, hstaged, Bool.or_false]
      rcases (hstep.rowStep h.coherent hk id).stage hrow' with ⟨row, hrow, hkeep⟩ | ⟨hnew, -⟩ |
        ⟨-, hl⟩
      · rw [hkeep, hsame]
        exact h.knows id r₀ data hpass row hrow
      · exact absurd hnew (h.drawn id r₀ data hpass).ne
      · cases hl
        cases hstaged

theorem Staged.step (h : s.Staged lib) (hstep : s.Step lib l t) : t.Staged lib := by
  have hk := h.owned.keyed
  have hnext := hstep.next_id_le hk
  refine ⟨h.coherent.step hstep, h.owned.step h.coherent hstep, ?_, ?_, ?_⟩
  · intro id row' hrow'
    rcases (hstep.rowStep h.coherent hk id).stage hrow' with ⟨row, hrow, hkeep⟩ | ⟨-, hhome⟩ |
      ⟨hforeign, -⟩
    · rw [hkeep]
      exact h.stages id row hrow
    · exact Or.inl hhome
    · exact Or.inr hforeign
  · intro id r data hpass'
    rcases passOver_step hstep hpass' with ⟨hpass, -⟩ | ⟨-, hmem, -⟩ | ⟨r₀, o, x, hpass, -, -⟩
    · exact lt_of_lt_of_le (h.drawn id r data hpass) hnext
    · obtain ⟨-, -, rfl⟩ := passOver_iff.mp hpass'
      obtain ⟨row, hrow, -⟩ := h.owned.held_row (mem_held_of_waiting hmem)
      exact lt_of_lt_of_le (hk.lt_next_of_row? hrow) hnext
    · exact lt_of_lt_of_le (h.drawn id r₀ data hpass) hnext
  · intro id r data hpass' row' hrow'
    rcases passOver_step hstep hpass' with ⟨hpass, hl⟩ | ⟨htrace, hmem, hrows⟩ |
      ⟨r₀, o, x, hpass, rfl, htrace⟩
    · rcases (hstep.rowStep h.coherent hk id).stage hrow' with ⟨row, hrow, hkeep⟩ | ⟨hnew, -⟩ |
        ⟨-, heq⟩
      · rw [hkeep]
        exact h.knows id r data hpass row hrow
      · exact absurd hnew (h.drawn id r data hpass).ne
      · exact absurd heq (hl _)
    · -- the message carries the stage of the row it was claimed for
      obtain ⟨-, -, rfl⟩ := passOver_iff.mp hpass'
      rw [hrows] at hrow'
      have hfit := (h.owned.fits _ hmem row' hrow').1
      rw [hfit, Running.stage, htrace]
      rfl
    · exact h.knows_after hstep hpass htrace hrow'

theorem Staged.run (h : s.Staged lib) (hrun : (system lib W).Run s ls t) : t.Staged lib :=
  hrun.invariant (fun _ _ _ hs hstep => hs.step hstep) h

/-! ## The change of stage -/

/-- A row goes from `home` to `foreign`: it needs signatures, its flag is on, and the
pass over it has just seen its submission mined. -/
structure StageChange (s : Sys W) (id : Int) (row row' : EventLog) : Prop where
  from_home : row.stage = some .home
  to_foreign : row'.stage = some .foreign
  goes_foreign : GoesForeign s.config row.bridge_mode
  submission : ∃ r data, s.passOver id = some (r, data) ∧ SubmissionMined data r.trace

/-- What the sender has in hand is the message of its pass. -/
theorem inHand_of_passOver {data' : SenderData} (hpass : s.passOver id = some (r, data))
    (hhand : s.inHand = some data') : data' = data := by
  obtain ⟨hr, hjob, -⟩ := passOver_iff.mp hpass
  simp only [inHand, hr, Option.bind_some, Running.inHand, hjob] at hhand
  split at hhand
  · cases hhand
  · exact (Option.some.inj hhand).symm

theorem Staged.stageChange (h : s.Staged lib) (hstep : s.Step lib l t)
    (hrow : s.row? id = some row) (hrow' : t.row? id = some row')
    (hne : row'.stage ≠ row.stage) : s.StageChange id row row' := by
  have hk := h.owned.keyed
  rcases (hstep.rowStep h.coherent hk id).stage hrow' with ⟨row₀, hrow₀, hkeep⟩ | ⟨hnew, -⟩ |
    ⟨hforeign, rfl⟩
  · obtain rfl := Option.some.inj (hrow.symm.trans hrow₀)
    exact absurd hkeep hne
  · exact absurd hnew (hk.lt_next_of_row? hrow).ne
  · obtain ⟨-, data', hhand, hid'⟩ := holder_of_statement h.coherent rfl hstep
    cases hstep with
    | @call _ r _ k _ sh hr hrest hans =>
        obtain ⟨-, data, hjob, -, hid, -⟩ := h.coherent.sender_allows hr hrest rfl
        have hpass : s.passOver id = some (r, data) := passOver_iff.mpr ⟨hr, hjob, hid.symm⟩
        obtain ⟨hhome, hgoes, hmined⟩ := h.coherent.staging_allows hpass hrest
        have hknown := h.knows id r data hpass row hrow
        rw [hhome.stage] at hknown
        have hmode : row.bridge_mode = data.on_chain_calldata.bridgeMode := by
          obtain rfl := inHand_of_passOver hpass hhand
          exact h.owned.inHand_mode data' hhand row (hid' ▸ hrow)
        constructor
        · rcases h.stages id row hrow with hstage | hstage
          · exact hstage
          · rw [hknown] at hstage
            exact absurd (Option.some.inj hstage) hhome.1
        · exact hforeign
        · rw [hmode]
          exact hgoes
        · exact ⟨r, data, hpass, hmined⟩

/-! ## Past the home stage -/

/-- The row has been at stage `foreign`: it still is, if it is there, and a pass over
it knows. -/
structure PastHome (s : Sys W) (id : Int) : Prop where
  drawn : id < s.shared.db.next_id
  row : ∀ row, s.row? id = some row → row.stage = some .foreign
  pass : ∀ r data, s.passOver id = some (r, data) → r.stage data = .foreign

theorem Staged.pastHome (h : s.Staged lib) (hrow : s.row? id = some row)
    (hstage : row.stage = some .foreign) : s.PastHome id := by
  constructor
  · exact h.owned.keyed.lt_next_of_row? hrow
  · intro row' hrow'
    obtain rfl := Option.some.inj (hrow.symm.trans hrow')
    exact hstage
  · intro r data hpass
    have hknown := h.knows id r data hpass row hrow
    exact Option.some.inj (hknown.symm.trans hstage)

theorem stage_foreign_append {r₀ : Running} {e : Event Calls}
    (h : r₀.stage data = .foreign) (htrace : r.trace = r₀.trace ++ [e]) :
    r.stage data = .foreign := by
  unfold Running.stage at h ⊢
  rw [htrace, HasStaged, List.any_append]
  cases hstaged : r₀.trace.any writesStage with
  | true => simp
  | false =>
      rw [HasStaged, hstaged] at h
      have hdata : data.stage = .foreign := by simpa using h
      simp [hdata]

theorem PastHome.step (hp : s.PastHome id) (h : s.Staged lib) (hstep : s.Step lib l t) :
    t.PastHome id := by
  have hk := h.owned.keyed
  constructor
  · exact lt_of_lt_of_le hp.drawn (hstep.next_id_le hk)
  · intro row' hrow'
    rcases (hstep.rowStep h.coherent hk id).stage hrow' with ⟨row, hrow, hkeep⟩ | ⟨hnew, -⟩ |
      ⟨hforeign, -⟩
    · rw [hkeep]
      exact hp.row row hrow
    · exact absurd hnew hp.drawn.ne
    · exact hforeign
  · intro r data hpass'
    rcases passOver_step hstep hpass' with ⟨hpass, -⟩ | ⟨htrace, hmem, hrows⟩ |
      ⟨r₀, o, x, hpass, -, htrace⟩
    · exact hp.pass r data hpass
    · obtain ⟨-, -, rfl⟩ := passOver_iff.mp hpass'
      obtain ⟨row, hrow, -⟩ := h.owned.held_row (mem_held_of_waiting hmem)
      have hfit := (h.owned.fits _ hmem row hrow).1
      have hstage : data.stage = .foreign := Option.some.inj (hfit.symm.trans (hp.row row hrow))
      rw [Running.stage, htrace]
      exact hstage
    · exact stage_foreign_append (hp.pass r₀ data hpass) htrace

end Sys

/-- A `submitSignature` for the row is sent. -/
def Label.submitsFor (id : Int) : Label → Bool
  | .call _ ⟨.rpc (.send id' _ tx), _⟩ => decide (id' = id) && tx.isSubmission
  | _ => false

namespace Sys

variable {s t : Sys W} {l : Label} {ls : List Label} {id : Int}

theorem PastHome.not_submitted (hp : s.PastHome id) (h : s.Staged lib) (hstep : s.Step lib l t) :
    l.submitsFor id = false := by
  cases hl : l.submitsFor id with
  | false => rfl
  | true =>
      cases hstep with
      | @call v r o k x sh hr hrest hans =>
          cases o with
          | rpc rq =>
              cases rq with
              | send id' sender call =>
                  simp only [Label.submitsFor, Bool.and_eq_true, decide_eq_true_eq] at hl
                  obtain ⟨rfl, hcall⟩ := hl
                  obtain ⟨rfl, data, hjob, hid⟩ := h.coherent.sender_allows hr hrest rfl
                  have hpass : s.passOver id' = some (r, data) :=
                    passOver_iff.mpr ⟨hr, hjob, hid.symm⟩
                  have hallow := h.coherent.staging_allows hpass hrest
                  cases call with
                  | submitSignature =>
                      have hhome : AtHome data r.trace := hallow
                      have hstage := hp.pass r data hpass
                      rw [hhome.stage] at hstage
                      exact absurd hstage hhome.1
                  | _ => cases hcall
              | _ => cases hl
          | _ => cases hl
      | _ => cases hl

theorem PastHome.run (hp : s.PastHome id) (h : s.Staged lib)
    (hrun : (system lib W).Run s ls t) :
    t.PastHome id ∧ ∀ l ∈ ls, l.submitsFor id = false := by
  induction hrun with
  | nil =>
      refine ⟨hp, fun l hl => ?_⟩
      cases hl
  | snoc hrun hstep ih =>
      obtain ⟨hpast, hquiet⟩ := ih
      have ht := h.run hrun
      refine ⟨hpast.step ht hstep, fun l hl => ?_⟩
      rcases List.mem_append.mp hl with hl | hl
      · exact hquiet l hl
      · obtain rfl := List.mem_singleton.mp hl
        exact hpast.not_submitted ht hstep

end Sys

/-! ## Stage resumption -/

/-- What holds of the stages in `s`, in every step from it and in all that can follow. -/
structure StageResumption (lib : Externals) (s : Sys W) : Prop where
  home_or_foreign : ∀ r ∈ s.shared.db.event_logs, r.stage = some .home ∨ r.stage = some .foreign
  changes : ∀ l t id row row', s.Step lib l t → s.row? id = some row → t.row? id = some row' →
    row'.stage ≠ row.stage → s.StageChange id row row'
  never_again : ∀ r ∈ s.shared.db.event_logs, r.stage = some .foreign →
    ∀ ls t, (system lib W).Run s ls t → ∀ l ∈ ls, l.submitsFor r.id = false

/-- **Stage resumption.** In every run over any table of rows at the two stages, with
any answers, failures, panics and restarts. -/
theorem stage_resumption {cfg : Config} {db : Db} {w : W.State} {ls : List Label} {s : Sys W}
    (hk : db.Keyed)
    (hstages : ∀ r ∈ db.event_logs, r.stage = some .home ∨ r.stage = some .foreign)
    (hrun : (system lib W).Run (Sys.boot cfg db w) ls s) : StageResumption lib s := by
  have hboot : (Sys.boot cfg db w).Staged lib := by
    constructor
    · exact Sys.coherent_boot
    · refine Sys.owned_over hk fun r hr => ?_
      rcases hstages r hr with h | h <;> rw [h] <;> exact nofun
    · intro id row hrow
      exact hstages row (Db.row?_mem hrow)
    · intro id r data hpass
      cases hpass
    · intro id r data hpass
      cases hpass
  have hs := hboot.run hrun
  have hkeyed := hs.owned.keyed
  constructor
  · intro r hr
    exact hs.stages r.id r (hkeyed.row?_of_mem hr)
  · intro l t id row row' hstep hrow hrow' hne
    exact hs.stageChange hstep hrow hrow' hne
  · intro r hr hstage ls' t hrun'
    exact ((hs.pastHome (hkeyed.row?_of_mem hr) hstage).run hs hrun').2

open Deployment in
/-- The first pass is stopped by the helper after the change of stage. -/
theorem stage_resumption_staged : ∃ (s : Sys (World.chains externals)),
    (∃ r ∈ s.shared.db.event_logs, r.stage = some .foreign) ∧ StageResumption externals s := by
  have hboot : (Sys.boot config Db.empty [] : Sys (World.chains externals)).Resting :=
    Sys.resting_boot
  have hsound : ∀ turn ∈ [Turn.index .GCAmb (chains (.error "timeout") true),
      .process .msg_processor_1 (chains (.error "timeout") true),
      .send (chains (.error "timeout") true)], turn.Sound := by
    simp [Turn.Sound, chains_truthful]
  obtain ⟨ls, s, hrun, -, hp⟩ := Turn.exists_of_playAll _
    (fun q => q.2.shared.db.event_logs.any fun r => r.stage == some .foreign) hsound hboot
    (show (Turn.playAll externals _ _).any _ = true by decide +kernel)
  simp only [List.any_eq_true, beq_iff_eq] at hp
  refine ⟨s, hp, stage_resumption Db.keyed_empty (fun r hr => ?_) hrun⟩
  cases hr

end BridgeValidator
