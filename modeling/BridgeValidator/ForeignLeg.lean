import BridgeValidator.Chains
import BridgeValidator.SenderOutcomes

/-!
# The foreign leg

A message that needs signatures goes home first and then, with the flag on, to
the foreign chain. A pass over it is split here into the part before this
validator's submission, the wait for its receipt, the change of stage, and the
foreign part, where a DELETE needs an execution or a blob of the wrong length.
-/

namespace BridgeValidator

open Interaction

namespace OnChainSender

/-! ## The parts of a pass -/

/-- How far a pass has come: before the submission, waiting for its receipt,
about to change the stage, or past that. -/
inductive Leg where
  | home
  | submitted
  | accepted
  | foreign
deriving DecidableEq, Repr

def Leg.start : Stage → Leg
  | .foreign => .foreign
  | _ => .home

/-- A submission that is given up leaves the row where it was. -/
def Leg.after : Leg → (o : Op) → o.Ans → Leg
  | .home, .rpc (.send _ _ (.submitSignature ..)), .ok _ => .submitted
  | .submitted, .rpc (.getReceipt _), .ok _ => .accepted
  | .submitted, .rpc (.getReceipt _), .error _ => .home
  | .accepted, .db (.updateStage ..), .ok _ => .foreign
  | .accepted, .db (.updateStage ..), .error _ => .home
  | leg, _, _ => leg

/-- The pass has executed the message on the foreign chain, or found that the
signatures do not have the expected length. -/
def ForeignDone (cfg : Config) (msg : OnChainCallData) (seen : Trace Calls) : Prop :=
  EndsInReceipt (fun call => IsExecution cfg call msg) true seen ∨ WrongLength cfg seen msg

/-- After a submission comes the wait for its receipt, after the receipt the
change of stage, and on the foreign leg a DELETE needs a reason. Executions
that were mined are assumed to have succeeded. -/
def legs (cfg : Config) (msg : OnChainCallData) (id : Int) :
    Protocol Calls (Leg × Trace Calls) where
  allows g o := match g.1, o with
    | .home, .db (.updateStage ..) => False
    | .submitted, .rpc (.getReceipt _) => True
    | .submitted, _ => False
    | .accepted, .db (.updateStage stage id') => stage = .foreign ∧ id' = id
    | .accepted, _ => False
    | .foreign, .db (.deleteEventLog _) => ForeignDone cfg msg g.2
    | .foreign, .db (.updateStage ..) => False
    | _, _ => True
  admits g o x := match g.1, o, x with
    | .foreign, .rpc (.getReceipt _), .ok receipt => receipt.status = true
    | _, _, _ => True
  next g o x := (g.1.after o x, g.2 ++ [⟨o, x⟩])

/-- Nothing is waited for. -/
def Free (g : Leg × Trace Calls) : Prop := g.1 = .home ∨ g.1 = .foreign

variable {lib : Externals} {cfg : Config} {msg : OnChainCallData} {id : Int} {leg : Leg}
  {seen : Trace Calls} {stage : Stage} {signer : PrivateKeySigner} {bridge : Bridge}
  {key : Option String} {var : String} {contract_address : Address}

theorem legs_view {call : ViewCall}
    {Q : Leg × Trace Calls → Except (Exit BridgeValidatorError) call.Ret → Prop}
    (hfree : Free (leg, seen)) (hok : ∀ a, Q (leg, seen ++ [⟨.rpc (.view call), .ok a⟩]) (.ok a))
    (herr : ∀ seen e, Free (leg, seen) → Q (leg, seen) (.error e)) :
    Act.Follows (legs cfg msg id) (leg, seen) (view call) Q := by
  rcases hfree with hleg | hleg <;> obtain rfl : leg = _ := hleg
  · exact follows_view.mpr ⟨trivial, fun a _ => hok a, fun _ _ => herr _ _ (Or.inl rfl)⟩
  · exact follows_view.mpr ⟨trivial, fun a _ => hok a, fun _ _ => herr _ _ (Or.inr rfl)⟩

theorem legs_connect {url : String}
    {Q : Leg × Trace Calls → Except (Exit BridgeValidatorError) Unit → Prop}
    (hfree : Free (leg, seen)) (hok : Q (leg, seen ++ [⟨.rpc (.connect url), .ok ()⟩]) (.ok ()))
    (herr : ∀ seen e, Free (leg, seen) → Q (leg, seen) (.error e)) :
    Act.Follows (legs cfg msg id) (leg, seen) (connect url) Q := by
  rcases hfree with hleg | hleg <;> obtain rfl : leg = _ := hleg
  · exact follows_connect.mpr ⟨trivial, fun _ _ => hok, fun _ _ => herr _ _ (Or.inl rfl)⟩
  · exact follows_connect.mpr ⟨trivial, fun _ _ => hok, fun _ _ => herr _ _ (Or.inr rfl)⟩

theorem legs_incrementRetryCount (hfree : Free (leg, seen)) :
    Act.Follows (legs cfg msg id) (leg, seen) (incrementRetryCount id) fun g _ => Free g := by
  rcases hfree with hleg | hleg <;> obtain rfl : leg = _ := hleg
  · exact follows_sql.mpr ⟨trivial, fun _ _ => Or.inl rfl, fun _ _ => Or.inl rfl⟩
  · exact follows_sql.mpr ⟨trivial, fun _ _ => Or.inr rfl, fun _ _ => Or.inr rfl⟩

theorem legs_andReturn {g : Leg × Trace Calls} {p : Action Unit}
    (h : Act.Follows (legs cfg msg id) g p fun g _ => Free g) :
    Act.Follows (legs cfg msg id) g (do p; return) fun g _ => Free g := by
  refine Act.follows_bind.mpr (h.mono ?_)
  rintro g (_ | _) hg <;> exact hg

/-- At home a DELETE needs no reason. -/
theorem legs_delete_home :
    Act.Follows (legs cfg msg id) (.home, seen) (deleteEventLog id) fun g _ => Free g :=
  follows_sql.mpr ⟨trivial, fun _ _ => Or.inl rfl, fun _ _ => Or.inl rfl⟩

theorem legs_delete_foreign (h : ForeignDone cfg msg seen) :
    Act.Follows (legs cfg msg id) (.foreign, seen) (deleteEventLog id) fun g _ => Free g :=
  follows_sql.mpr ⟨h, fun _ _ => Or.inr rfl, fun _ _ => Or.inr rfl⟩

theorem legs_sendThenDelete {call : TxCall} (hcall : IsExecution cfg call msg) :
    Act.Follows (legs cfg msg id) (.foreign, seen) (sendThenDelete lib signer call id)
      fun g _ => Free g := by
  refine Act.follows_bind.mpr (follows_await.mpr ⟨trivial, ?_⟩)
  rintro (e | tx) -
  · exact legs_incrementRetryCount (Or.inr rfl)
  · refine Act.follows_bind.mpr (follows_await.mpr ⟨trivial, ?_⟩)
    rintro (e | receipt) hstatus
    · exact legs_incrementRetryCount (Or.inr rfl)
    · refine legs_delete_foreign (Or.inl ⟨seen, id, lib.signerAddress signer, call, tx, receipt,
        ?_, hcall, hstatus⟩)
      exact List.append_assoc _ _ _

theorem legs_executeOnForeign {required : U256} {signatures : Bytes} {call : TxCall}
    (hcall : IsExecution cfg call msg) (hrequired : GotRequired required seen msg)
    (hgot : GotSignatures cfg signatures seen msg) :
    Act.Follows (legs cfg msg id) (.foreign, seen)
      (executeOnForeign lib cfg signer required signatures call id) fun g _ => Free g := by
  unfold executeOnForeign
  by_cases hfits : LengthFits lib required
  · rw [expectedSignaturesLen_eq hfits, Act.pure_andThen, Act.pure_andThen]
    refine Act.follows_ite.mpr ⟨fun _ => ?_, fun hlen => ?_⟩
    · exact Act.follows_bind.mpr (legs_connect (Or.inr rfl) (legs_sendThenDelete hcall)
        fun _ _ h => h)
    · exact legs_delete_foreign (Or.inr ⟨required, signatures, hrequired, hgot, hlen⟩)
  · obtain ⟨m, hm⟩ := expectedSignaturesLen_panics hfits
    rw [hm, Act.panic_andThen]
    exact Or.inr rfl

theorem legs_ambForeign {calldata : AmbGcCalldata} {required : U256}
    (hrequired : GotRequired required seen (.AmbGc contract_address calldata)) :
    Act.Follows (legs cfg (.AmbGc contract_address calldata) id) (.foreign, seen)
      (ambForeign lib cfg calldata.message id signer required) fun g _ => Free g := by
  refine Act.follows_bind.mpr (legs_view (Or.inr rfl) (fun signatures => ?_) fun _ _ h => h)
  refine legs_executeOnForeign ⟨signatures, rfl⟩ ?_ ?_
  · exact List.mem_append_left _ hrequired
  · exact List.mem_append_right _ (List.mem_singleton_self _)

theorem legs_xdaiForeign {calldata : XdaiGcCalldata} {required : U256}
    (hrequired : GotRequired required seen (.XdaiGc contract_address calldata)) :
    Act.Follows (legs cfg (.XdaiGc contract_address calldata) id) (.foreign, seen)
      (xdaiForeign lib cfg calldata.message id signer required) fun g _ => Free g := by
  refine Act.follows_bind.mpr (Act.follows_orThrow.mpr ⟨fun parsed hparsed => ?_,
    fun _ _ => Or.inr rfl⟩)
  refine Act.follows_bind.mpr (legs_view (Or.inr rfl) (fun msg_hash => ?_) fun _ _ h => h)
  refine Act.follows_bind.mpr (legs_view (Or.inr rfl) (fun signatures => ?_) fun _ _ h => h)
  refine legs_executeOnForeign ⟨signatures, rfl⟩ ?_ ?_
  · exact List.mem_append_left _ (List.mem_append_left _ hrequired)
  · exact ⟨parsed, msg_hash, hparsed, by simp, by simp⟩

theorem legs_signAndExecute {signature message : Bytes} {flag : String}
    {foreign : PrivateKeySigner → U256 → Action Unit} (hflag : flag = "true")
    (hrequired : ∀ required seen, GotRequired required seen msg ↔
      ⟨.rpc (.view (.requiredSignatures bridge contract_address)), .ok required⟩ ∈ seen)
    (hforeign : ∀ signer required seen, GotRequired required seen msg →
      Act.Follows (legs cfg msg id) (.foreign, seen) (foreign signer required) fun g _ => Free g) :
    Act.Follows (legs cfg msg id) (Leg.start stage, [])
      (signAndExecute lib cfg bridge key var contract_address signature message flag foreign id
        stage) fun g _ => Free g := by
  have hstart : Free (Leg.start stage, []) := by
    cases stage with
    | foreign => exact Or.inr rfl
    | home | other => exact Or.inl rfl
  refine Act.follows_bind.mpr (follows_loadSigner.mpr ⟨fun _ => hstart,
    fun _ _ => ⟨fun signer _ => ?_, fun _ _ => hstart⟩⟩)
  refine Act.follows_bind.mpr (legs_connect hstart ?_ fun _ _ h => h)
  refine Act.follows_bind.mpr (legs_view hstart (fun required => ?_) fun _ _ h => h)
  simp only
  by_cases hstage : stage = .foreign
  · have hforeignLeg : Leg.start stage = .foreign := congrArg Leg.start hstage
    rw [if_neg (not_not.mpr hstage), hforeignLeg]
    refine Act.follows_ite.mpr ⟨fun _ => hforeign _ _ _ ?_, fun hne => absurd hflag hne⟩
    rw [hrequired]
    simp
  · have hhome : Leg.start stage = .home := by
      cases stage with
      | foreign => exact absurd rfl hstage
      | home | other => rfl
    rw [if_pos hstage, hhome]
    refine Act.follows_bind.mpr (legs_view (Or.inl rfl) (fun signed => ?_) fun _ _ h => h)
    refine Act.follows_ite.mpr ⟨fun _ => legs_andReturn legs_delete_home, fun _ => ?_⟩
    refine Act.follows_bind.mpr (legs_view (Or.inl rfl) (fun already_signed => ?_) fun _ _ h => h)
    refine Act.follows_ite.mpr ⟨fun _ => legs_andReturn legs_delete_home, fun _ => ?_⟩
    refine Act.follows_bind.mpr (Act.follows_attempt.mpr (follows_submitSignature.mpr
      ⟨trivial, fun tx _ => ⟨trivial, fun receipt _ => ?_, fun e _ => ?_⟩, fun e _ => ?_⟩))
    · refine Act.follows_ite.mpr ⟨fun herr => Bool.noConfusion herr, fun _ => ?_⟩
      refine Act.follows_ite.mpr ⟨fun hne => absurd hflag hne, fun _ => ?_⟩
      refine Act.follows_bind.mpr (follows_sql.mpr ⟨⟨rfl, rfl⟩, fun _ _ => ?_,
        fun _ _ => Or.inl rfl⟩)
      refine Act.follows_ite.mpr ⟨fun _ => hforeign _ _ _ ?_, fun hne => absurd hflag hne⟩
      rw [hrequired]
      simp [legs]
    · refine Act.follows_ite.mpr ⟨fun _ => ?_, fun hok => absurd rfl hok⟩
      exact legs_andReturn (legs_incrementRetryCount (Or.inl rfl))
    · refine Act.follows_ite.mpr ⟨fun _ => ?_, fun hok => absurd rfl hok⟩
      exact legs_andReturn (legs_incrementRetryCount (Or.inl rfl))

/-- The flag for a kind of row. -/
def executeOnForeignFlagOf (cfg : Config) : BridgeMode → String
  | .XDAI_GC => cfg.xdai_execute_message_on_foreign
  | _ => cfg.amb_execute_message_on_foreign

theorem legs_processMessage
    (hmode : msg.bridgeMode = .AMB_GC ∨ msg.bridgeMode = .XDAI_GC)
    (hflag : executeOnForeignFlagOf cfg msg.bridgeMode = "true") :
    Act.Follows (legs cfg msg id) (Leg.start stage, []) (processMessage lib cfg msg id stage)
      fun g _ => Free g := by
  cases msg with
  | AmbGc contract_address calldata =>
      exact legs_signAndExecute hflag (fun _ _ => Iff.rfl) fun _ _ _ h => legs_ambForeign h
  | XdaiGc contract_address calldata =>
      exact legs_signAndExecute hflag (fun _ _ => Iff.rfl) fun _ _ _ h => legs_xdaiForeign h
  | AmbEth | XdaiEth => rcases hmode with h | h <;> cases h

theorem legs_send {data : SenderData}
    (hmode : data.on_chain_calldata.bridgeMode = .AMB_GC ∨
      data.on_chain_calldata.bridgeMode = .XDAI_GC)
    (hflag : executeOnForeignFlagOf cfg data.on_chain_calldata.bridgeMode = "true") :
    Act.Follows (legs cfg data.on_chain_calldata data.event_log_id) (Leg.start data.stage, [])
      (Job.prog lib cfg (.send data)) fun g _ => Free g := by
  refine Act.follows_bind.mpr (Act.follows_bind.mpr (Act.follows_attempt.mpr
    ((legs_processMessage hmode hflag).mono ?_)))
  rintro ⟨leg, seen⟩ ((e | m) | a) hfree
  · -- the release after an error
    refine Act.follows_bind.mpr (Act.follows_attempt.mpr
      ((legs_incrementRetryCount hfree).mono ?_))
    rintro g ((e | m) | a) hg <;> exact hg
  · exact hfree
  · exact hfree

end OnChainSender

open OnChainSender

/-! ## Passes in the system -/

/-- How far the pass has come. -/
def Running.leg (r : Running) (data : SenderData) : Leg :=
  r.trace.foldl (fun leg e => leg.after e.op e.ans) (Leg.start data.stage)

theorem after_legs {cfg : Config} {msg : OnChainCallData} {id : Int} (leg : Leg)
    (seen tr : Trace Calls) : (legs cfg msg id).after (leg, seen) tr =
      (tr.foldl (fun leg e => leg.after e.op e.ans) leg, seen ++ tr) := by
  induction tr generalizing leg seen with
  | nil => simp
  | cons e tr ih =>
      rw [Protocol.after_cons, List.foldl_cons]
      exact (ih _ _).trans (by simp)

namespace Sys

variable {W : World} {lib : Externals}

def legOver (s : Sys W) (id : Int) : Option Leg := (s.passOver id).map fun p => p.1.leg p.2

/-- A pass over the row has sent its submission and not yet changed the stage. -/
def settling (s : Sys W) (id : Int) : Bool :=
  s.legOver id == some .submitted || s.legOver id == some .accepted

/-- The row, if it is there, has passed the home stage. -/
def pastHome (s : Sys W) (id : Int) : Bool := (s.row? id).all fun r => r.stage == some .foreign

end Sys

/-- The wait for a receipt or the change of stage ends without success, or the
process does. -/
def Label.givesUp : Label → Bool
  | .call .on_chain_sender ⟨.rpc (.getReceipt _), .error _⟩ => true
  | .call .on_chain_sender ⟨.db (.updateStage ..), .error _⟩ => true
  | l => l.ends

/-- A receipt says that its transaction was reverted. -/
def Label.failsReceipt : Label → Bool
  | .call .on_chain_sender e => failedReceipt e
  | _ => false

/-- A submission for the row is mined only while a pass over the row waits for
it or when the row has passed the home stage; such a pass is then not given up
before the stage is changed; and executions that are mined succeed. -/
structure Sys.Attended {lib : Externals} (id : Int) (s : Sys (World.chains lib)) (l : Label)
    (t : Sys (World.chains lib)) : Prop where
  mined : s.submitted id = false → t.submitted id = true →
    s.settling id = true ∨ s.pastHome id = true
  seen : s.submitted id = true → s.settling id = true → l.givesUp = false
  executed : s.legOver id = some .foreign → l.failsReceipt = false

instance {lib : Externals} (id : Int) (s : Sys (World.chains lib)) (l : Label)
    (t : Sys (World.chains lib)) : Decidable (s.Attended id l t) :=
  decidable_of_iff
    ((s.submitted id = false → t.submitted id = true →
        s.settling id = true ∨ s.pastHome id = true) ∧
      (s.submitted id = true → s.settling id = true → l.givesUp = false) ∧
      (s.legOver id = some .foreign → l.failsReceipt = false))
    ⟨fun h => ⟨h.1, h.2.1, h.2.2⟩, fun h => ⟨h.mined, h.seen, h.executed⟩⟩

/-! ## The invariant -/

namespace Sys

variable {lib : Externals} {mode : BridgeMode} {id : Int} {s t : Sys (World.chains lib)}
  {l : Label} {r : Running} {data : SenderData}

/-- What holds of the row and the passes over it: once a submission is mined,
the row has passed the home stage, or the pass that waits for it will see to that. -/
structure OnTrack (mode : BridgeMode) (id : Int) (s : Sys (World.chains lib)) : Prop where
  flag : executeOnForeignFlagOf s.config mode = "true"
  message : ∀ r data, s.passOver id = some (r, data) → ∀ row, s.row? id = some row →
    data.on_chain_calldata.bridgeMode = row.bridge_mode
  staged : ∀ r data, s.passOver id = some (r, data) → r.leg data ≠ .foreign →
    ∀ row, s.row? id = some row → row.bridge_mode = mode → row.stage ≠ some .foreign
  admitted : ∀ r data, s.passOver id = some (r, data) → ∀ cfg msg,
    (legs cfg msg id).Admitted (Leg.start data.stage, []) r.trace
  settled : s.submitted id = true → ∀ row, s.row? id = some row → row.bridge_mode = mode →
    row.stage = some .foreign ∨ s.settling id = true

theorem legOver_eq (h : s.passOver id = some (r, data)) : s.legOver id = some (r.leg data) := by
  rw [legOver, h]
  rfl

theorem settling_iff (h : s.passOver id = some (r, data)) :
    s.settling id = true ↔ r.leg data = .submitted ∨ r.leg data = .accepted := by
  simp [settling, legOver_eq h]

theorem exists_of_settling (h : s.settling id = true) :
    ∃ r data, s.passOver id = some (r, data) ∧
      (r.leg data = .submitted ∨ r.leg data = .accepted) := by
  cases hp : s.passOver id with
  | none => simp [settling, legOver, hp] at h
  | some p =>
      obtain ⟨r, data⟩ := p
      exact ⟨r, data, rfl, (settling_iff hp).mp h⟩

/-- The pass over a row that needs signatures follows the legs. -/
theorem OnTrack.follows (h : s.OnTrack mode id) (hs : s.Coherent lib)
    (hmode : mode = .AMB_GC ∨ mode = .XDAI_GC) (hpass : s.passOver id = some (r, data))
    {row : EventLog} (hrow : s.row? id = some row) (hm : row.bridge_mode = mode) :
    Act.Follows (legs s.config data.on_chain_calldata id) (r.leg data, r.trace) r.rest
      fun g _ => Free g := by
  obtain ⟨hr, hjob, rfl⟩ := passOver_iff.mp hpass
  obtain ⟨-, hsteps⟩ := hs _ r hr
  have hmsg : data.on_chain_calldata.bridgeMode = mode := (h.message r data hpass row hrow).trans hm
  rw [hjob] at hsteps
  have hround := @legs_send lib s.config data (hmsg ▸ hmode) (hmsg ▸ h.flag)
  have hfollows := Prog.Follows.steps hround hsteps (h.admitted r data hpass _ _)
  rw [after_legs, List.nil_append] at hfollows
  exact hfollows

/-- Mining changes no row. -/
theorem Step.db_eq_of_mined (h : s.Step lib l t) (hs : s.submitted id = false)
    (ht : t.submitted id = true) : t.shared.db = s.shared.db := by
  have hsame : t.txs ≠ s.txs := by
    intro heq
    rw [submitted, heq] at ht
    rw [submitted, ht] at hs
    cases hs
  cases h with
  | call hr hrest hans =>
      cases hans with
      | rpc _ => rfl
      | _ => exact absurd rfl hsame
  | tick _ => rfl
  | _ => exact absurd rfl hsame

/-- Nor is anything given up in a step in which a transaction is mined. -/
theorem Step.givesUp_of_mined (h : s.Step lib l t) (hs : s.submitted id = false)
    (ht : t.submitted id = true) : l.givesUp = false := by
  have hsame : t.txs ≠ s.txs := by
    intro heq
    rw [submitted, heq] at ht
    rw [submitted, ht] at hs
    cases hs
  cases h with
  | @call v r o k x sh hr hrest hans =>
      cases hans with
      | @rpc rq x w hw =>
          cases rq with
          | getReceipt tx =>
              cases x with
              | ok receipt => cases v <;> rfl
              | error e => exact absurd hw hsame
          | _ => cases v <;> rfl
      | _ => exact absurd rfl hsame
  | tick _ => rfl
  | _ => exact absurd rfl hsame

/-- Where the row comes from when a submission for it has been mined. -/
theorem OnTrack.before (h : s.OnTrack mode id) (hs : s.Coherent lib) (howned : s.Owned)
    (hacc : s.Accounted) (hstep : s.Step lib l t) (hatt : s.Attended id l t)
    (hsub : t.submitted id = true) {row' : EventLog} (hrow' : t.row? id = some row')
    (hm : row'.bridge_mode = mode) :
    ∃ row, s.row? id = some row ∧ row.bridge_mode = mode ∧
      (row'.stage = some .foreign ∨ s.settling id = true ∧ l.givesUp = false) := by
  cases hbefore : s.submitted id with
  | true =>
      obtain ⟨tx, htx, hid⟩ := List.any_eq_true.mp hbefore
      have hdrawn : id < s.shared.db.next_id := by
        simp only [Bool.and_eq_true, beq_iff_eq] at hid
        rw [← hid.1]
        exact hacc.known tx htx
      obtain ⟨row, hrow, hmode, hstage⟩ := hstep.row_frame hs howned.keyed hdrawn hrow'
      refine ⟨row, hrow, hmode ▸ hm, ?_⟩
      rcases h.settled hbefore row hrow (hmode ▸ hm) with hforeign | hsettling
      · left
        rcases hstage with hstage | ⟨hstage, -⟩
        · rw [hstage, hforeign]
        · exact hstage
      · exact Or.inr ⟨hsettling, hatt.seen hbefore hsettling⟩
  | false =>
      have hdb := hstep.db_eq_of_mined hbefore hsub
      have hrow : s.row? id = some row' := by
        rw [row?, ← hdb]
        exact hrow'
      refine ⟨row', hrow, hm, ?_⟩
      rcases hatt.mined hbefore hsub with hsettling | hpast
      · exact Or.inr ⟨hsettling, hstep.givesUp_of_mined hbefore hsub⟩
      · left
        simpa [pastHome, hrow] using hpast

theorem leg_append {r₀ : Running} {o : Op} {x : o.Ans} (h : r.trace = r₀.trace ++ [⟨o, x⟩]) :
    r.leg data = (r₀.leg data).after o x := by
  simp [Running.leg, h]

/-- A mined submission is settled, or its pass goes on to settle it. -/
theorem OnTrack.settled_step (h : s.OnTrack mode id) (hs : s.Coherent lib) (howned : s.Owned)
    (hacc : s.Accounted) (hmode : mode = .AMB_GC ∨ mode = .XDAI_GC) (hstep : s.Step lib l t)
    (hatt : s.Attended id l t) (hsub : t.submitted id = true) {row' : EventLog}
    (hrow' : t.row? id = some row') (hm : row'.bridge_mode = mode) :
    row'.stage = some .foreign ∨ t.settling id = true := by
  obtain ⟨row, hrow, hm', hforeign | ⟨hsettling, hup⟩⟩ :=
    h.before hs howned hacc hstep hatt hsub hrow' hm
  · exact Or.inl hforeign
  · obtain ⟨r, data, hpass, hleg⟩ := exists_of_settling hsettling
    have hfollows := h.follows hs hmode hpass hrow hm'
    obtain ⟨hr, hjob, hid⟩ := passOver_iff.mp hpass
    cases hstep.sender with
    | others hrunning hl =>
        right
        rw [settling, legOver, passOver_congr hrunning]
        exact hsettling
    | recv hidle hch =>
        rw [hidle.1] at hr
        cases hr
    | @call r' o k x sh hr' hrest hans =>
        obtain rfl : r = r' := Option.some.inj (hr.symm.trans hr')
        rw [hrest] at hfollows
        have hallow := hfollows.1
        have hpass' : (s.advance .on_chain_sender r ⟨o, x⟩ (k x) sh).passOver id =
            some (⟨r.job, r.trace ++ [⟨o, x⟩], k x⟩, data) := passOver_advance hpass
        rcases hleg with hleg | hleg
        · -- waiting for the receipt
          rw [hleg] at hallow
          cases hans with
          | @rpc rq x w hw =>
              cases rq with
              | getReceipt tx =>
                  cases x with
                  | error e => cases hup
                  | ok receipt =>
                      right
                      refine (settling_iff hpass').mpr (Or.inr ((leg_append rfl).trans ?_))
                      rw [hleg]
                      rfl
              | _ => exact hallow.elim
          | _ => exact hallow.elim
        · -- about to change the stage
          rw [hleg] at hallow
          cases hans with
          | @db st x db' hans =>
              have heff := hans.rowEffect howned.keyed id
              cases st with
              | updateStage stage id' =>
                  obtain ⟨rfl, rfl⟩ := hallow
                  cases x with
                  | error e => cases hup
                  | ok a =>
                      left
                      have hafter : some row' = (s.row? id').map (EventLog.withStage .foreign) :=
                        hrow'.symm.trans (heff.trans (if_pos rfl))
                      rw [hrow] at hafter
                      rw [Option.some.inj hafter]
                      rfl
              | _ => exact hallow.elim
          | _ => exact hallow.elim
    | finish hr' hrest =>
        obtain rfl := Option.some.inj (hr.symm.trans hr')
        rw [hrest] at hfollows
        rcases hfollows with hfree | hfree <;> rcases hleg with hleg | hleg <;>
          · rw [hleg] at hfree
            cases hfree
    | ends hends hrunning =>
        have hgiven : l.givesUp = true := by
          cases l <;> first | exact hends | cases hends
        rw [hup] at hgiven
        cases hgiven

/-- Past the home part a pass stays there. -/
theorem leg_ne_foreign {o : Op} {x : o.Ans} {leg : Leg} (h : leg.after o x ≠ .foreign) :
    leg ≠ .foreign := by
  rintro rfl
  exact h rfl

/-- What the legs assume of an answer is that executions succeed. -/
theorem admits_of_executed {o : Op} {x : o.Ans} {leg : Leg} {seen : Trace Calls} {cfg : Config}
    {msg : OnChainCallData}
    (h : leg = .foreign → (Label.call .on_chain_sender ⟨o, x⟩).failsReceipt = false) :
    (legs cfg msg id).admits (leg, seen) o x := by
  cases leg with
  | foreign =>
      cases o with
      | rpc rq =>
          cases rq with
          | getReceipt tx =>
              cases x with
              | error e => trivial
              | ok receipt =>
                  show receipt.status = true
                  simpa [Label.failsReceipt, failedReceipt] using h rfl
          | _ => trivial
      | _ => trivial
  | _ => trivial

theorem OnTrack.message_step (h : s.OnTrack mode id) (hs : s.Coherent lib) (howned : s.Owned)
    (hacc : s.Accounted) (hstep : s.Step lib l t) (hpass' : t.passOver id = some (r, data))
    {row' : EventLog} (hrow' : t.row? id = some row') :
    data.on_chain_calldata.bridgeMode = row'.bridge_mode := by
  have hkeeps : ∀ r₀, s.passOver id = some (r₀, data) →
      data.on_chain_calldata.bridgeMode = row'.bridge_mode := by
    intro r₀ hpass
    obtain ⟨row, hrow, hkeep, -⟩ := hstep.row_frame hs howned.keyed (hacc.drawn hpass) hrow'
    rw [hkeep]
    exact h.message r₀ data hpass row hrow
  obtain ⟨-, -, hid⟩ := passOver_iff.mp hpass'
  rcases passOver_step hstep hpass' with ⟨hpass, -⟩ | ⟨-, hmem, hrows⟩ | ⟨r₀, o, x, hpass, -, -⟩
  · exact hkeeps r hpass
  · rw [hrows, ← hid] at hrow'
    exact (howned.fits _ hmem row' hrow').2.symm
  · exact hkeeps r₀ hpass

/-- Before the foreign leg the row of a pass is not at stage foreign. -/
theorem OnTrack.staged_step (h : s.OnTrack mode id) (hs : s.Coherent lib) (howned : s.Owned)
    (hacc : s.Accounted) (hmode : mode = .AMB_GC ∨ mode = .XDAI_GC) (hstep : s.Step lib l t)
    (hpass' : t.passOver id = some (r, data)) (hleg : r.leg data ≠ .foreign) {row' : EventLog}
    (hrow' : t.row? id = some row') (hm : row'.bridge_mode = mode) :
    row'.stage ≠ some .foreign := by
  obtain ⟨-, -, hid⟩ := passOver_iff.mp hpass'
  rcases passOver_step hstep hpass' with ⟨hpass, hl⟩ | ⟨htrace, hmem, hrows⟩ |
    ⟨r₀, o, x, hpass, rfl, htrace⟩
  · obtain ⟨row, hrow, hkeep, hstage⟩ :=
      hstep.row_frame hs howned.keyed (hacc.drawn hpass) hrow'
    rcases hstage with hstage | ⟨-, hcall⟩
    · rw [hstage]
      exact h.staged r data hpass hleg row hrow (hkeep ▸ hm)
    · exact absurd hcall (hl _)
  · -- the pass begins at the stage of its row
    rw [hrows, ← hid] at hrow'
    rw [(howned.fits _ hmem row' hrow').1]
    intro hforeign
    apply hleg
    rw [Running.leg, htrace, Option.some.inj hforeign]
    rfl
  · obtain ⟨row, hrow, hkeep, hstage⟩ :=
      hstep.row_frame hs howned.keyed (hacc.drawn hpass) hrow'
    have hleg₀ := (leg_append htrace) ▸ hleg
    rcases hstage with hstage | ⟨-, heq⟩
    · rw [hstage]
      exact h.staged r₀ data hpass (leg_ne_foreign hleg₀) row hrow (hkeep ▸ hm)
    · -- the stage changes when the pass goes on to the foreign leg, and only then
      cases heq
      refine absurd ?_ hleg₀
      cases hstep with
      | @call _ r₁ _ k _ sh hr₁ hrest hans =>
          obtain ⟨hr₀, -, -⟩ := passOver_iff.mp hpass
          obtain rfl : r₀ = r₁ := Option.some.inj (hr₀.symm.trans hr₁)
          have hfollows := h.follows hs hmode hpass hrow (hkeep ▸ hm)
          rw [hrest] at hfollows
          have hallow := hfollows.1
          generalize r₀.leg data = leg at hallow ⊢
          cases leg with
          | accepted => rfl
          | foreign => rfl
          | _ => exact hallow.elim

theorem OnTrack.admitted_step (h : s.OnTrack mode id) (hstep : s.Step lib l t)
    (hatt : s.Attended id l t) (hpass' : t.passOver id = some (r, data)) (cfg : Config)
    (msg : OnChainCallData) : (legs cfg msg id).Admitted (Leg.start data.stage, []) r.trace := by
  rcases passOver_step hstep hpass' with ⟨hpass, -⟩ | ⟨htrace, -, -⟩ |
    ⟨r₀, o, x, hpass, rfl, htrace⟩
  · exact h.admitted r data hpass cfg msg
  · rw [htrace]
    trivial
  · rw [htrace, Protocol.admitted_append, after_legs]
    refine ⟨h.admitted r₀ data hpass cfg msg, ?_, trivial⟩
    apply admits_of_executed
    intro hleg
    exact hatt.executed ((legOver_eq hpass).trans (congrArg some hleg))

theorem OnTrack.step (h : s.OnTrack mode id) (hs : s.Coherent lib) (howned : s.Owned)
    (hacc : s.Accounted) (hmode : mode = .AMB_GC ∨ mode = .XDAI_GC) (hstep : s.Step lib l t)
    (hatt : s.Attended id l t)
    (hflag : ∀ cfg, l = .restart cfg → executeOnForeignFlagOf cfg mode = "true") :
    t.OnTrack mode id := by
  constructor
  · cases hl : l.isRestart with
    | false => rw [hstep.config_eq hl, h.flag]
    | true =>
        cases hstep with
        | restart => exact hflag _ rfl
        | _ => cases hl
  · intro r data hpass' row' hrow'
    exact h.message_step hs howned hacc hstep hpass' hrow'
  · intro r data hpass' hleg row' hrow' hm
    exact h.staged_step hs howned hacc hmode hstep hpass' hleg hrow' hm
  · intro r data hpass' cfg msg
    exact h.admitted_step hstep hatt hpass' cfg msg
  · intro hsub row' hrow' hm
    exact h.settled_step hs howned hacc hmode hstep hatt hsub hrow' hm

/-- A pass over the row is on the foreign leg, and done with it. -/
def ForeignLegDone (s : Sys (World.chains lib)) (id : Int) : Prop :=
  ∃ r data, s.passOver id = some (r, data) ∧ r.leg data = .foreign ∧
    ForeignDone s.config data.on_chain_calldata r.trace

/-- The DELETE of a row whose submission is mined comes from the foreign leg. -/
theorem OnTrack.done_of_deleted (h : s.OnTrack mode id) (hs : s.Coherent lib) (howned : s.Owned)
    (hmode : mode = .AMB_GC ∨ mode = .XDAI_GC) (hstep : s.Step lib l t)
    (hsub : s.submitted id = true) {row : EventLog} (hrow : s.row? id = some row)
    (hm : row.bridge_mode = mode) (hgone : t.row? id = none) : s.ForeignLegDone id := by
  obtain ⟨rfl, data, hhand, hid⟩ := hstep.deleted hs howned.keyed hrow hgone
  cases hstep with
  | @call _ r _ k _ sh hr hrest hans =>
      have hjob : r.job = .send data := by
        simp only [inHand, hr, Option.bind_some, Running.inHand] at hhand
        split at hhand
        · split at hhand
          · cases hhand
          · cases hhand
            assumption
        · cases hhand
      have hpass : s.passOver id = some (r, data) := passOver_iff.mpr ⟨hr, hjob, hid⟩
      have hfollows := h.follows hs hmode hpass hrow hm
      rw [hrest] at hfollows
      have hallow := hfollows.1
      cases hleg : r.leg data with
      | home =>
          have hnot : r.leg data ≠ .foreign := by
            rw [hleg]
            intro heq
            cases heq
          have hstage := h.staged r data hpass hnot row hrow hm
          rcases h.settled hsub row hrow hm with hforeign | hsettling
          · exact absurd hforeign hstage
          · rw [settling_iff hpass, hleg] at hsettling
            rcases hsettling with h | h <;> cases h
      | foreign =>
          rw [hleg] at hallow
          exact ⟨r, data, hpass, hleg, hallow⟩
      | _ =>
          rw [hleg] at hallow
          exact hallow.elim

end Sys

/-! ## Over runs -/

/-- A restart leaves the flag for the rows of this kind on. -/
def Label.keepsFlag (mode : BridgeMode) : Label → Bool
  | .restart cfg => executeOnForeignFlagOf cfg mode == "true"
  | _ => true

/-- The system while the flag stays on. -/
def flagOn (lib : Externals) (mode : BridgeMode) : Machine (Sys (World.chains lib)) Label :=
  (system lib (World.chains lib)).guarded fun _ l _ => l.keepsFlag mode = true

/-- And while the submissions for one row are attended to. -/
def attended (lib : Externals) (mode : BridgeMode) (id : Int) :
    Machine (Sys (World.chains lib)) Label :=
  (system lib (World.chains lib)).guarded fun s l t =>
    l.keepsFlag mode = true ∧ s.Attended id l t

variable {lib : Externals} {mode : BridgeMode} {id : Int} {s₀ s m t : Sys (World.chains lib)}
  {ls ls₁ ls₂ : List Label}

theorem onTrack_of_run (hmode : mode = .AMB_GC ∨ mode = .XDAI_GC)
    (hinit : (system lib (World.chains lib)).init s₀)
    (hflag : executeOnForeignFlagOf s₀.config mode = "true")
    (hrun : (attended lib mode id).Run s₀ ls s) : s.OnTrack mode id := by
  induction hrun with
  | nil =>
      obtain ⟨cfg, w, hw, rfl⟩ := hinit
      have hnone : w = [] := hw
      subst hnone
      refine ⟨hflag, ?_, ?_, ?_, ?_⟩
      · rintro r data ⟨⟩
      · rintro r data ⟨⟩
      · rintro r data ⟨⟩
      · rintro ⟨⟩
  | snoc hrun hstep ih =>
      have hreach : (system lib (World.chains lib)).Reachable _ := ⟨s₀, _, hinit, hrun.of_guarded⟩
      refine ih.step (coherent_of_reachable hreach) (owned_of_reachable hreach)
        (accounted_of_reachable hreach) hmode hstep.1 hstep.2.2 ?_
      rintro cfg rfl
      simpa [Label.keepsFlag] using hstep.2.1

/-- At some point of the run a pass over the row was done with the foreign leg. -/
def ForeignLegWasDone (s₀ t : Sys (World.chains lib)) (ls : List Label) (id : Int) : Prop :=
  ∃ ls₁ u ls₂, ls = ls₁ ++ ls₂ ∧ (system lib (World.chains lib)).Run s₀ ls₁ u ∧
    (system lib (World.chains lib)).Run u ls₂ t ∧ u.ForeignLegDone id

theorem ForeignLegWasDone.snoc {l : Label} (h : ForeignLegWasDone s₀ s ls id)
    (hstep : s.Step lib l t) : ForeignLegWasDone s₀ t (ls ++ [l]) id := by
  obtain ⟨ls₁, u, ls₂, rfl, h₁, h₂, hu⟩ := h
  exact ⟨ls₁, u, ls₂ ++ [l], by simp, h₁, .snoc h₂ hstep, hu⟩

/-! ## Two passes over one row -/

/-- A transaction of the foreign chain. -/
def TxCall.executes : TxCall → Bool
  | .safeExecuteSignaturesWithAutoGasLimit .. => true
  | .executeSignatures .. => true
  | _ => false

/-- A call that only the foreign leg makes. -/
def foreignCall : Event Calls → Bool
  | ⟨.rpc (.send _ _ call), _⟩ => call.executes
  | e => (blobAnswer e).isSome

def Label.reachesForeign : Label → Bool
  | .call _ e => foreignCall e
  | _ => false

theorem OnChainSender.ForeignDone.mem {cfg : Config} {msg : OnChainCallData} {seen : Trace Calls}
    (h : ForeignDone cfg msg seen) : ∃ e ∈ seen, foreignCall e = true := by
  rcases h with ⟨before, id, signer, call, tx, receipt, rfl, hcall, -⟩ | ⟨_, _, -, hgot, -⟩
  · refine ⟨⟨.rpc (.send id signer call), .ok tx⟩, by simp, ?_⟩
    cases msg with
    | AmbGc | XdaiGc =>
        obtain ⟨signatures, rfl⟩ := hcall
        rfl
    | AmbEth | XdaiEth => exact hcall.elim
  · obtain ⟨⟨o, x⟩, he, hanswer⟩ := hgot.answer
    refine ⟨_, he, ?_⟩
    cases o with
    | rpc rq =>
        cases rq with
        | view call => exact Option.isSome_iff_exists.mpr ⟨_, hanswer⟩
        | _ => cases hanswer
    | _ => cases hanswer

theorem ForeignLegWasDone.label (hs : ∀ v, s₀.running v = none)
    (h : ForeignLegWasDone s₀ t ls id) : ∃ l ∈ ls, l.reachesForeign = true := by
  obtain ⟨ls₁, u, ls₂, rfl, hrun, -, r, data, hpass, -, hdone⟩ := h
  obtain ⟨e, he, hforeign⟩ := hdone.mem
  have hmem := call_mem_labels hrun hs (Sys.passOver_iff.mp hpass).1 e he
  exact ⟨_, List.mem_append_left _ hmem, hforeign⟩

namespace Deployment

/-- Every pending transaction is mined, successfully. -/
def mineAll (w : List ChainTx) : List ChainTx :=
  w.map fun tx => if tx.status.isNone then tx.mined true else tx

/-- The home bridge and the chains answer; the helper as given, and receipts
come, with the transactions mined, or time out. -/
def chains (signatures : Except String Bytes) (receipts : Bool) :
    Oracle (World.chains externals) := fun w r =>
  match r with
  | .connect _ => (.ok (), w)
  | .view (.messagesSigned bridge contract hashSender) =>
      (.ok (List.any w (ChainTx.signs externals bridge contract hashSender)), w)
  | .view (.ambGetSignatures ..) => (signatures, w)
  | .view call => (.ok (views call), w)
  | .send row sender call => (.ok (List.length w), List.append w [⟨row, sender, call, none⟩])
  | .getReceipt tx =>
      match ((mineAll w)[tx]?).bind ChainTx.status with
      | some status =>
          if receipts then (.ok { transaction_hash := .repeatByte 32 3, status }, mineAll w)
          else (.error "timeout", w)
      | none => (.error "timeout", w)
  | r => ((lookups (.repeatByte 32 0xaa) () r).1, w)

theorem mineAll_settles (w : List ChainTx) : List.Forall₂ ChainTx.Settles w (mineAll w) := by
  induction w with
  | nil => exact .nil
  | cons tx w ih =>
      refine .cons (?_ : tx.Settles (if tx.status.isNone then tx.mined true else tx)) ih
      split
      · rename_i hpending
        exact .mined (by simpa using hpending) true
      · exact .same

theorem tick_mineAll : (Turn.tick mineAll : Turn (World.chains externals)).Sound := mineAll_settles

theorem chains_truthful (signatures : Except String Bytes) (receipts : Bool) :
    (chains signatures receipts).Truthful := by
  intro w r
  cases r with
  | send row sender call => exact ⟨rfl, rfl⟩
  | getReceipt tx =>
      simp only [chains]
      split
      · rename_i status hstatus
        split
        · exact ⟨mineAll_settles w, hstatus⟩
        · rfl
      · rfl
  | view call =>
      cases call with
      | messagesSigned bridge contract hashSender => exact ⟨rfl, fun h => h⟩
      | ambGetSignatures => cases signatures <;> rfl
      | _ => rfl
  | ethGetBlockByNumber url tag => cases tag <;> rfl
  | _ => rfl

end Deployment

/-- **The foreign leg is not dropped** while the submissions for the row are
attended to: the row goes only after some pass was done with it. -/
theorem foreign_leg_is_not_dropped {row : EventLog}
    (hmode : mode = .AMB_GC ∨ mode = .XDAI_GC)
    (hinit : (system lib (World.chains lib)).init s₀)
    (hflag : executeOnForeignFlagOf s₀.config mode = "true")
    (h₁ : (attended lib mode id).Run s₀ ls₁ m) (hrow : m.row? id = some row)
    (hm : row.bridge_mode = mode) (hsub : m.submitted id = true)
    (h₂ : (attended lib mode id).Run m ls₂ t) (hgone : t.row? id = none) :
    ForeignLegWasDone s₀ t (ls₁ ++ ls₂) id := by
  have hlives : (∃ row', t.row? id = some row' ∧ row'.bridge_mode = mode) ∧
      t.submitted id = true ∨ ForeignLegWasDone s₀ t (ls₁ ++ ls₂) id := by
    clear hgone
    induction h₂ with
    | nil => exact Or.inl ⟨⟨row, hrow, hm⟩, hsub⟩
    | @snoc ls u l t h₂ hstep ih =>
        have hreach : (system lib (World.chains lib)).Reachable u :=
          ⟨s₀, _, hinit, (h₁.append h₂).of_guarded⟩
        rw [← List.append_assoc]
        rcases ih with ⟨⟨row', hrow', hm'⟩, hsub'⟩ | hdone
        · have hs := coherent_of_reachable hreach
          have howned := owned_of_reachable hreach
          cases hafter : t.row? id with
          | none =>
              right
              have htrack := onTrack_of_run hmode hinit hflag (h₁.append h₂)
              have hdone := htrack.done_of_deleted hs howned hmode hstep.1 hsub' hrow' hm' hafter
              exact ⟨_, u, [l], rfl, (h₁.append h₂).of_guarded, .single hstep.1, hdone⟩
          | some row'' =>
              left
              have hdrawn := howned.keyed.lt_next_of_row? hrow'
              obtain ⟨r, hr, hkeep, -⟩ := hstep.1.row_frame hs howned.keyed hdrawn hafter
              obtain rfl := Option.some.inj (hrow'.symm.trans hr)
              exact ⟨⟨row'', rfl, hkeep.trans hm'⟩, hstep.1.submitted_mono hsub'⟩
        · exact Or.inr (hdone.snoc hstep.1)
  rcases hlives with ⟨⟨row', hrow', -⟩, -⟩ | hdone
  · rw [hgone] at hrow'
    cases hrow'
  · exact hdone

open Deployment in
/-- The first pass is stopped by the helper after its submission; the second one
executes the message and deletes the row. -/
theorem foreign_leg_is_not_dropped_executed :
    ∃ (s₀ t : Sys (World.chains externals)) (ls : List Label),
      (attended externals .AMB_GC 1).Run s₀ ls t ∧ t.row? 1 = none ∧
      ForeignLegWasDone s₀ t ls 1 := by
  have hboot : (Sys.boot config Db.empty [] : Sys (World.chains externals)).Resting :=
    Sys.resting_boot
  have hsound : ∀ signatures : Except String Bytes, ∀ turn ∈
      [Turn.index .GCAmb (chains signatures true),
        .process .msg_processor_1 (chains signatures true),
        .send (chains signatures true)], turn.Sound := by
    simp [Turn.Sound, chains_truthful]
  obtain ⟨ls₁, m, ls₂, t, h₁, h₂, hp⟩ := Turn.exists_of_playGuarded₂
    [.index .GCAmb (chains (.error "timeout") true),
      .process .msg_processor_1 (chains (.error "timeout") true),
      .send (chains (.error "timeout") true)]
    [.index .GCAmb (chains (.ok (List.replicate 131 0)) true),
      .process .msg_processor_1 (chains (.ok (List.replicate 131 0)) true),
      .send (chains (.ok (List.replicate 131 0)) true)]
    (fun q₁ q₂ => q₁.2.submitted 1 &&
      (q₁.2.row? 1).any (fun row : EventLog => decide (row.bridge_mode = .AMB_GC)) &&
      (q₂.2.row? 1).isNone)
    (hsound _) (hsound _) hboot
    (show (Turn.playGuarded externals (fun s l t => l.keepsFlag .AMB_GC = true ∧
      s.Attended 1 l t) _ _).any _ = true by decide +kernel)
  simp only [Bool.and_eq_true, Option.any_eq_true, decide_eq_true_eq,
    Option.isNone_iff_eq_none] at hp
  obtain ⟨⟨hsub, row, hrow, hm⟩, hgone⟩ := hp
  have hinit : (system externals (World.chains externals)).init (Sys.boot config Db.empty []) :=
    ⟨config, [], rfl, rfl⟩
  exact ⟨_, t, ls₁ ++ ls₂, h₁.append h₂, hgone,
    foreign_leg_is_not_dropped (Or.inl rfl) hinit rfl h₁ hrow hm hsub h₂ hgone⟩

open Deployment in
/-- The submission is mined, but the wait for its receipt times out. The second
pass finds the message signed and deletes the row. -/
theorem foreign_leg_is_dropped :
    ¬ ∀ (lib : Externals) (mode : BridgeMode) (id : Int) (s₀ m t : Sys (World.chains lib))
      (ls₁ ls₂ : List Label) (row : EventLog), (mode = .AMB_GC ∨ mode = .XDAI_GC) →
      (system lib (World.chains lib)).init s₀ →
      executeOnForeignFlagOf s₀.config mode = "true" → (flagOn lib mode).Run s₀ ls₁ m →
      m.row? id = some row → row.bridge_mode = mode → m.submitted id = true →
      (flagOn lib mode).Run m ls₂ t → t.row? id = none →
      ForeignLegWasDone s₀ t (ls₁ ++ ls₂) id := by
  intro hclaim
  have hboot : (Sys.boot config Db.empty [] : Sys (World.chains externals)).Resting :=
    Sys.resting_boot
  have hsound₁ : ∀ turn ∈ [Turn.index .GCAmb (chains (.error "timeout") false),
      .process .msg_processor_1 (chains (.error "timeout") false),
      .send (chains (.error "timeout") false), .tick mineAll], turn.Sound := by
    simp only [List.forall_mem_cons]
    exact ⟨chains_truthful _ _, chains_truthful _ _, chains_truthful _ _, tick_mineAll, nofun⟩
  have hsound₂ : ∀ turn ∈ [Turn.process .msg_processor_1 (chains (.error "timeout") true),
      .send (chains (.error "timeout") true)], turn.Sound := by
    simp [Turn.Sound, chains_truthful]
  obtain ⟨ls₁, m, ls₂, t, h₁, h₂, hp⟩ := Turn.exists_of_playGuarded₂ _ _
    (fun q₁ q₂ => q₁.2.submitted 1 &&
      (q₁.2.row? 1).any (fun row : EventLog => decide (row.bridge_mode = .AMB_GC)) &&
      (q₂.2.row? 1).isNone && (q₁.1 ++ q₂.1).all fun l => !l.reachesForeign)
    hsound₁ hsound₂ hboot
    (show (Turn.playGuarded externals (fun s l t => l.keepsFlag .AMB_GC = true) _ _).any _ = true
      by decide +kernel)
  simp only [Bool.and_eq_true, Option.any_eq_true, decide_eq_true_eq, Option.isNone_iff_eq_none,
    List.all_eq_true, Bool.not_eq_eq_eq_not, Bool.not_true] at hp
  obtain ⟨⟨⟨hsub, row, hrow, hm⟩, hgone⟩, hlabels⟩ := hp
  have hinit : (system externals (World.chains externals)).init (Sys.boot config Db.empty []) :=
    ⟨config, [], rfl, rfl⟩
  obtain ⟨l, hl, hforeign⟩ := (hclaim externals .AMB_GC 1 _ m t ls₁ ls₂ row (Or.inl rfl) hinit rfl
    h₁ hrow hm hsub h₂ hgone).label fun _ => rfl
  rw [hlabels l hl] at hforeign
  cases hforeign

end BridgeValidator
