import BridgeValidator.SenderEvidence
import Mathlib.Data.List.Induction

/-!
# The signature count

The helper's blob holds one byte for the count and 65 for each signature. The number
of signatures comes as a 256-bit word, and the length is worked out in `usize`: a
number that is too large unwinds the task, or wraps where overflow is not checked.
Every number whose length can be represented is compared exactly, on a fresh pass and
on a resumed one; a number whose length cannot is never turned into an error.
-/

namespace BridgeValidator

open Interaction

namespace OnChainSender

/-- The length of a blob with this many signatures is a `usize`. -/
def Representable (required : U256) : Prop := 65 * required.toNat + 1 ≤ u64Max

/-- The bridge has said how many signatures it requires, and then the helper has handed
out a blob. -/
def Counts (required : U256) (signatures : Bytes) (seen : Trace Calls) (e : Event Calls) : Prop :=
  (∃ e' ∈ seen, requiredAnswer e' = some required) ∧ blobAnswer e = some signatures

/-- What one round of the sender owes to the number and the blob it is given. -/
structure CountsExactly (lib : Externals) (cfg : Config) (data : SenderData) (tr : Trace Calls)
    (result : Except (Exit BridgeValidatorError) Unit) : Prop where
  /-- the task goes on with the next message -/
  survives : result = .ok ()
  executes : ∀ seen e rest required signatures, tr = seen ++ e :: rest →
    Counts required signatures seen e →
    ((∃ x rest', rest = ⟨.rpc (.connect cfg.getEthRpc), x⟩ :: rest') ↔
      signatures.length = 65 * required.toNat + 1)
  /-- a number that cannot be represented is an error, and the row is released -/
  released : ∀ seen e rest required signatures, tr = seen ++ e :: rest →
    Counts required signatures seen e → ¬ Representable required →
    (∃ err, (processMessage lib cfg data.on_chain_calldata data.event_log_id data.stage).Runs
      (seen ++ [e]) (.error (.error err))) ∧
    ∃ x, rest = [⟨.db (.incrementRetryCount data.event_log_id), x⟩]

/-- No blob is handed out for a number that cannot be represented. -/
def NumbersRepresentable (tr : Trace Calls) : Prop :=
  ∀ seen e rest required signatures, tr = seen ++ e :: rest →
    Counts required signatures seen e → Representable required

/-! ## The call after the blob -/

/-- The view asks for the number of required signatures. -/
def Op.asksRequired : Op → Bool
  | .rpc (.view (.requiredSignatures ..)) => true
  | _ => false

/-- The view asks a helper for the blob. -/
def Op.asksBlob : Op → Bool
  | .rpc (.view (.ambGetSignatures ..)) => true
  | .rpc (.view (.xdaiGetSignatures ..)) => true
  | _ => false

theorem asksBlob_of_answer {e : Event Calls} {signatures : Bytes}
    (h : blobAnswer e = some signatures) : Op.asksBlob e.op = true := by
  unfold blobAnswer at h
  split at h
  · rfl
  · rfl
  · cases h

theorem asksRequired_of_answer {e : Event Calls} {required : U256}
    (h : requiredAnswer e = some required) : Op.asksRequired e.op = true := by
  unfold requiredAnswer at h
  split at h
  · rfl
  · cases h

/-- How far a round has come: before the blob, right after it, or one call later. -/
inductive CountPhase where
  | before (required : Option U256)
  | counted (required : U256) (signatures : Bytes)
  | past

namespace CountPhase

def after : CountPhase → Event Calls → CountPhase
  | .before none, e => .before (requiredAnswer e)
  | .before (some required), e =>
      match blobAnswer e with
      | some signatures => .counted required signatures
      | none => .before (some required)
  | .counted .., _ => .past
  | .past, _ => .past

/-- Any phase but the one right after the blob. -/
def Uncounted (g : CountPhase) : Prop := ∀ required signatures, g ≠ .counted required signatures

end CountPhase

theorem uncounted_before {required : Option U256} : (CountPhase.before required).Uncounted :=
  fun _ _ => nofun

theorem uncounted_past : CountPhase.past.Uncounted := fun _ _ => nofun

/-- The number is asked for once and before the blob, the blob is asked for once, and
the call after it is the one the length decides on. -/
def counting (cfg : Config) : Protocol Calls CountPhase where
  allows
    | .before none, o => Op.asksBlob o = false
    | .before (some _), o => Op.asksRequired o = false
    | .counted required signatures, o => Op.asksBlob o = false ∧ Op.asksRequired o = false ∧
        (Representable required → (o = .rpc (.connect cfg.getEthRpc) ↔
          signatures.length = 65 * required.toNat + 1))
    | .past, o => Op.asksBlob o = false ∧ Op.asksRequired o = false
  admits _ _ _ := True
  next g o x := g.after ⟨o, x⟩

/-- Only a panic stops right after the blob, and only there is a panic. -/
structure CountEnds (g : CountPhase) (result : Except (Exit BridgeValidatorError) Unit) : Prop where
  panics : ∀ required signatures, g = .counted required signatures →
    ∃ m, result = .error (.panic m)
  counted : ∀ m, result = .error (.panic m) →
    ∃ required signatures, g = .counted required signatures ∧ ¬ Representable required

theorem counting_next {cfg : Config} {g : CountPhase} {o : Op} {x : o.Ans} :
    (counting cfg).next g o x = g.after ⟨o, x⟩ := rfl

section

variable {lib : Externals} {cfg : Config} {id : Int} {signer : PrivateKeySigner} {stage : Stage}

theorem ends_uncounted {g : CountPhase} {result : Except (Exit BridgeValidatorError) Unit}
    (hg : g.Uncounted) (h : ∀ m, result ≠ .error (.panic m)) : CountEnds g result :=
  ⟨fun required signatures heq => absurd heq (hg required signatures),
    fun m hm => absurd hm (h m)⟩

theorem ends_before {required : Option U256} {result : Except (Exit BridgeValidatorError) Unit}
    (h : ∀ m, result ≠ .error (.panic m)) : CountEnds (.before required) result :=
  ends_uncounted uncounted_before h

theorem ends_past {result : Except (Exit BridgeValidatorError) Unit}
    (h : ∀ m, result ≠ .error (.panic m)) : CountEnds .past result :=
  ends_uncounted uncounted_past h

/-- A call that asks neither for the number nor for the blob. -/
theorem counting_call {g : CountPhase} {o : Op} (hg : g.Uncounted)
    (hblob : Op.asksBlob o = false) (hrequired : Op.asksRequired o = false) :
    (counting cfg).allows g o ∧ ∀ x, ((counting cfg).next g o x).Uncounted := by
  rcases g with (_ | known) | ⟨known, blob⟩ | _
  · exact ⟨hblob, fun _ => uncounted_before⟩
  · refine ⟨hrequired, fun x required signatures hnext => ?_⟩
    simp only [counting_next, CountPhase.after] at hnext
    split at hnext
    · have hasks : Op.asksBlob o = true := asksBlob_of_answer ‹_›
      rw [hblob] at hasks
      cases hasks
    · cases hnext
  · exact absurd rfl (hg known blob)
  · exact ⟨⟨hblob, hrequired⟩, fun _ => uncounted_past⟩

theorem counting_sql {g : CountPhase} {st : Stmt} (hg : g.Uncounted) :
    Act.Follows (counting cfg) g (sql st) fun g' result =>
      g'.Uncounted ∧ ∀ m, result ≠ .error (.panic m) := by
  obtain ⟨hallows, hnext⟩ : (counting cfg).allows g (.db st) ∧ _ := counting_call hg rfl rfl
  exact follows_sql.mpr ⟨hallows, fun _ _ => ⟨hnext _, by simp⟩, fun _ _ => ⟨hnext _, by simp⟩⟩

/-- A statement that ends the pass. -/
theorem counting_last {g : CountPhase} {st : Stmt} {f : st.Ret → Unit} (hg : g.Uncounted) :
    Act.Follows (counting cfg) g (do return f (← sql st)) CountEnds := by
  refine Act.follows_bind.mpr ((counting_sql hg).mono ?_)
  rintro g' ((err | m) | a) ⟨hg', hends⟩
  · exact ends_uncounted hg' (by simp)
  · exact absurd rfl (hends m)
  · exact ends_uncounted hg' (by simp)

/-- A number whose blob has a length in range is computed without a wrap. -/
theorem Representable.fits {required : U256} (h : Representable required) :
    LengthFits lib required ∧ expectedLength required = 65 * required.toNat + 1 := by
  unfold Representable u64Max at h
  refine ⟨⟨?_, fun _ => ?_⟩, Nat.mod_eq_of_lt ?_⟩
  · unfold u64Max
    omega
  · -- 65 does not divide what `- 1` would still have to leave room for
    unfold u64Max
    omega
  · omega

theorem counting_sendThenDelete {g : CountPhase} {call : TxCall} (hg : g.Uncounted) :
    Act.Follows (counting cfg) g (sendThenDelete lib signer call id) CountEnds := by
  obtain ⟨hsend, hsent⟩ :
      (counting cfg).allows g (.rpc (.send id (lib.signerAddress signer) call)) ∧ _ :=
    counting_call hg rfl rfl
  refine Act.follows_bind.mpr (follows_await.mpr ⟨hsend, fun answer _ => ?_⟩)
  cases answer with
  | error e => exact (counting_sql (hsent _)).mono fun _ _ h => ends_uncounted h.1 h.2
  | ok tx =>
      obtain ⟨hask, hasked⟩ : (counting cfg).allows _ (.rpc (.getReceipt tx)) ∧ _ :=
        counting_call (hsent (.ok tx)) rfl rfl
      refine Act.follows_bind.mpr (follows_await.mpr ⟨hask, fun answer _ => ?_⟩)
      cases answer with
      | error e => exact (counting_sql (hasked _)).mono fun _ _ h => ends_uncounted h.1 h.2
      | ok receipt => exact (counting_sql (hasked _)).mono fun _ _ h => ends_uncounted h.1 h.2

theorem counting_executeOnForeign {required : U256} {signatures : Bytes} {call : TxCall} :
    Act.Follows (counting cfg) (.counted required signatures)
      (executeOnForeign lib cfg signer required signatures call id) CountEnds := by
  unfold executeOnForeign
  by_cases hfits : LengthFits lib required
  · rw [expectedSignaturesLen_eq hfits, Act.pure_andThen, Act.pure_andThen]
    have hexact : Representable required → expectedLength required = 65 * required.toNat + 1 :=
      fun h => (@Representable.fits lib required h).2
    refine Act.follows_ite.mpr ⟨fun hlen => ?_, fun hlen => ?_⟩
    · refine Act.follows_bind.mpr (follows_connect.mpr ⟨⟨rfl, rfl, fun hrep => ?_⟩, ?_, ?_⟩)
      · rw [hlen, hexact hrep]
        exact iff_of_true rfl rfl
      · intro _ _
        exact counting_sendThenDelete uncounted_past
      · intro _ _
        exact ends_past (by simp)
    · refine follows_sql.mpr ⟨⟨rfl, rfl, fun hrep => ?_⟩, ?_, ?_⟩
      · rw [hexact hrep] at hlen
        exact iff_of_false (by simp) hlen
      · intro _ _
        exact ends_past (by simp)
      · intro _ _
        exact ends_past (by simp)
  · obtain ⟨m, hm⟩ := expectedSignaturesLen_panics hfits
    rw [hm, Act.panic_andThen]
    refine ⟨fun _ _ _ => ⟨m, rfl⟩, fun _ _ => ⟨required, signatures, rfl, ?_⟩⟩
    exact fun hrep => hfits hrep.fits.1

/-- The arm's foreign stage, entered once the number is known. -/
def EntersForeign (cfg : Config) (foreign : PrivateKeySigner → U256 → Action Unit) : Prop :=
  ∀ signer required, Act.Follows (counting cfg) (.before (some required))
    (foreign signer required) CountEnds

theorem counting_ambForeign {message : Bytes} :
    EntersForeign cfg (ambForeign lib cfg message id) := by
  intro signer required
  refine Act.follows_bind.mpr (follows_view.mpr ⟨rfl, fun signatures _ => ?_, fun _ _ => ?_⟩)
  · exact counting_executeOnForeign
  · exact ends_before (by simp)

theorem counting_xdaiForeign {message : Bytes} :
    EntersForeign cfg (xdaiForeign lib cfg message id) := by
  intro signer required
  refine Act.follows_bind.mpr (Act.follows_orThrow.mpr ⟨fun parsed _ => ?_, fun _ _ => ?_⟩)
  · refine Act.follows_bind.mpr (follows_view.mpr ⟨rfl, fun msg_hash _ => ?_, fun _ _ => ?_⟩)
    · refine Act.follows_bind.mpr (follows_view.mpr ⟨rfl, fun signatures _ => ?_, fun _ _ => ?_⟩)
      · exact counting_executeOnForeign
      · exact ends_before (by simp)
    · exact ends_before (by simp)
  · exact ends_before (by simp)

theorem counting_signAndExecute {bridge : Bridge} {key : Option String} {var flag : String}
    {contract_address : Address} {signature message : Bytes}
    {foreign : PrivateKeySigner → U256 → Action Unit} (hforeign : EntersForeign cfg foreign) :
    Act.Follows (counting cfg) (.before none)
      (signAndExecute lib cfg bridge key var contract_address signature message flag foreign id
        stage) CountEnds := by
  refine Act.follows_bind.mpr (follows_loadSigner.mpr ⟨fun _ => ends_before (by simp),
    fun text _ => ⟨fun signer _ => ?_, fun _ _ => ends_before (by simp)⟩⟩)
  refine Act.follows_bind.mpr (follows_connect.mpr ⟨rfl, fun _ _ => ?_,
    fun _ _ => ends_before (by simp)⟩)
  refine Act.follows_bind.mpr (follows_view.mpr ⟨rfl, fun required _ => ?_,
    fun _ _ => ends_before (by simp)⟩)
  -- the number is known from here on
  have hlast : Act.Follows (counting cfg) (.before (some required))
      (if flag = "true" then foreign signer required else pure ()) CountEnds := by
    refine Act.follows_ite.mpr ⟨fun _ => hforeign signer required, fun _ => ?_⟩
    exact ends_before (by simp)
  simp only
  by_cases hstage : stage = .foreign
  · rw [if_neg (not_not.mpr hstage)]
    exact hlast
  · rw [if_pos hstage]
    refine Act.follows_bind.mpr (follows_view.mpr ⟨rfl, fun signed _ => ?_,
      fun _ _ => ends_before (by simp)⟩)
    refine Act.follows_ite.mpr ⟨fun _ => counting_last uncounted_before, fun _ => ?_⟩
    refine Act.follows_bind.mpr (follows_view.mpr ⟨rfl, fun already_signed _ => ?_,
      fun _ _ => ends_before (by simp)⟩)
    refine Act.follows_ite.mpr ⟨fun _ => counting_last uncounted_before, fun _ => ?_⟩
    refine Act.follows_bind.mpr (Act.follows_attempt.mpr (follows_submitSignature.mpr
      ⟨rfl, fun tx _ => ⟨rfl, fun receipt _ => ?_, fun _ _ => ?_⟩, fun _ _ => ?_⟩))
    · refine Act.follows_ite.mpr ⟨nofun, fun _ => ?_⟩
      refine Act.follows_ite.mpr ⟨fun _ => counting_last uncounted_before, fun _ => ?_⟩
      refine Act.follows_bind.mpr (follows_sql.mpr ⟨rfl, fun _ _ => hlast, fun _ _ => ?_⟩)
      exact ends_before (by simp)
    · exact Act.follows_ite.mpr ⟨fun _ => counting_last uncounted_before, fun h => absurd rfl h⟩
    · exact Act.follows_ite.mpr ⟨fun _ => counting_last uncounted_before, fun h => absurd rfl h⟩

theorem counting_affirm {bridge : Bridge} {key : Option String} {var : String}
    {contract_address : Address} {hash_msg : B256} {call : TxCall} :
    Act.Follows (counting cfg) (.before none)
      (affirm lib cfg bridge key var contract_address hash_msg call id) CountEnds := by
  refine Act.follows_bind.mpr (follows_loadSigner.mpr ⟨fun _ => ends_before (by simp),
    fun text _ => ⟨fun signer _ => ?_, fun _ _ => ends_before (by simp)⟩⟩)
  refine Act.follows_bind.mpr (follows_connect.mpr ⟨rfl, fun _ _ => ?_,
    fun _ _ => ends_before (by simp)⟩)
  refine Act.follows_bind.mpr (follows_view.mpr ⟨rfl, fun already_affirmed _ => ?_,
    fun _ _ => ends_before (by simp)⟩)
  refine Act.follows_ite.mpr ⟨fun _ => counting_last uncounted_before, fun _ => ?_⟩
  refine Act.follows_bind.mpr (follows_view.mpr ⟨rfl, fun signed _ => ?_,
    fun _ _ => ends_before (by simp)⟩)
  refine Act.follows_bind.mpr (follows_view.mpr ⟨rfl, fun required _ => ?_,
    fun _ _ => ends_before (by simp)⟩)
  refine Act.follows_ite.mpr ⟨fun _ => counting_last uncounted_before, fun _ => ?_⟩
  -- the number is known, and no blob is asked for
  exact counting_sendThenDelete uncounted_before

theorem counting_processMessage {msg : OnChainCallData} :
    Act.Follows (counting cfg) (.before none) (processMessage lib cfg msg id stage) CountEnds := by
  cases msg with
  | AmbEth contract_address calldata => exact counting_affirm
  | AmbGc contract_address calldata => exact counting_signAndExecute counting_ambForeign
  | XdaiEth contract_address calldata => exact counting_affirm
  | XdaiGc contract_address calldata => exact counting_signAndExecute counting_xdaiForeign

/-- After an error the row is released, and nothing is counted any more. -/
theorem counting_handle {data : SenderData} :
    Act.Follows (counting cfg) (.before none) (handle lib cfg data) fun g result =>
      CountEnds g result ∧ ∀ err, result ≠ .error (.error err) := by
  refine Act.follows_bind.mpr (Act.follows_attempt.mpr (counting_processMessage.mono ?_))
  rintro g ((err | m) | a) hends
  · have hg : g.Uncounted := by
      rintro required signatures rfl
      obtain ⟨m, hm⟩ := hends.panics required signatures rfl
      cases hm
    refine Act.follows_bind.mpr (Act.follows_attempt.mpr ((counting_sql hg).mono ?_))
    rintro g' ((err | m) | a) ⟨hg', hpanic⟩
    · exact ⟨ends_uncounted hg' (by simp), by simp⟩
    · exact absurd rfl (hpanic m)
    · exact ⟨ends_uncounted hg' (by simp), by simp⟩
  · exact ⟨hends, by simp⟩
  · refine ⟨⟨fun required signatures hg => ?_, by simp⟩, by simp⟩
    obtain ⟨m, hm⟩ := hends.panics required signatures hg
    cases hm

end

/-! ## Phases and traces -/

section

variable {cfg : Config} {seen tr : Trace Calls} {required required' : U256} {signatures : Bytes}

theorem counting_after_snoc {g : CountPhase} {e : Event Calls} :
    (counting cfg).after g (seen ++ [e]) = ((counting cfg).after g seen).after e := by
  rw [Protocol.after_append]
  rfl

/-- The phase remembers the only number there was. -/
theorem required_of_before (hallow : (counting cfg).Allowed (.before none) seen)
    {number : Option U256} (h : (counting cfg).after (.before none) seen = .before number) :
    ∀ r, (∃ e ∈ seen, requiredAnswer e = some r) ↔ number = some r := by
  induction seen using List.reverseRecOn generalizing number with
  | nil =>
      intro r
      cases h
      simp
  | append_singleton seen e ih =>
      rw [Protocol.allowed_append] at hallow
      rw [counting_after_snoc] at h
      intro r
      have hsplit : (∃ e' ∈ seen ++ [e], requiredAnswer e' = some r) ↔
          (∃ e' ∈ seen, requiredAnswer e' = some r) ∨ requiredAnswer e = some r := by
        simp [or_and_right, exists_or]
      rw [hsplit]
      cases hphase : (counting cfg).after (.before none) seen with
      | before known =>
          rw [ih hallow.1 hphase]
          rw [hphase] at h hallow
          cases known with
          | none =>
              cases h
              simp
          | some known =>
              have hother : requiredAnswer e = none := by
                cases hanswer : requiredAnswer e with
                | none => rfl
                | some r' =>
                    have hasks : Op.asksRequired e.op = false := hallow.2.1
                    rw [asksRequired_of_answer hanswer] at hasks
                    cases hasks
              simp only [CountPhase.after] at h
              split at h
              · cases h
              · cases h
                simp [hother]
      | counted known blob =>
          rw [hphase] at h
          cases h
      | past =>
          rw [hphase] at h
          cases h

/-- The phase after a blob, and before it. -/
theorem counted_of_counts {e : Event Calls} {rest : Trace Calls}
    (hallow : (counting cfg).Allowed (.before none) (seen ++ e :: rest))
    (h : Counts required signatures seen e) :
    (counting cfg).after (.before none) (seen ++ [e]) = .counted required signatures := by
  obtain ⟨hnumber, hblob⟩ := h
  rw [Protocol.allowed_append] at hallow
  have hasks := asksBlob_of_answer hblob
  have hallowed := hallow.2.1
  rw [counting_after_snoc]
  cases hphase : (counting cfg).after (.before none) seen with
  | before number =>
      obtain rfl := (required_of_before hallow.1 hphase required).mp hnumber
      simp only [CountPhase.after, hblob]
  | counted known blob =>
      rw [hphase] at hallowed
      rw [hallowed.1] at hasks
      cases hasks
  | past =>
      rw [hphase] at hallowed
      rw [hallowed.1] at hasks
      cases hasks

/-- Where a trace ends right after a blob, that blob was counted. -/
theorem counts_of_counted (hallow : (counting cfg).Allowed (.before none) tr)
    (h : (counting cfg).after (.before none) tr = .counted required signatures) :
    ∃ seen e, tr = seen ++ [e] ∧ Counts required signatures seen e := by
  rcases List.eq_nil_or_concat tr with rfl | ⟨seen, e, rfl⟩
  · cases h
  · rw [List.concat_eq_append] at hallow h ⊢
    rw [Protocol.allowed_append] at hallow
    rw [counting_after_snoc] at h
    refine ⟨seen, e, rfl, ?_⟩
    cases hphase : (counting cfg).after (.before none) seen with
    | before number =>
        rw [hphase] at h
        cases number with
        | none => cases h
        | some known =>
            simp only [CountPhase.after] at h
            split at h
            · cases h
              exact ⟨(required_of_before hallow.1 hphase required).mpr rfl, ‹_›⟩
            · cases h
    | counted known blob =>
        rw [hphase] at h
        cases h
    | past =>
        rw [hphase] at h
        cases h

end

/-! ## The rounds that count exactly -/

section

variable {lib : Externals} {cfg : Config} {data : SenderData} {tr : Trace Calls}
  {result : Except (Exit BridgeValidatorError) Unit}

theorem countsExactly_of_representable (hrun : (handle lib cfg data).Runs tr result)
    (hrep : NumbersRepresentable tr) : CountsExactly lib cfg data tr result := by
  have hfollows := Prog.Follows.of_runs counting_handle hrun
    (Protocol.admitted_of_all _ (fun _ _ _ => trivial) _ _)
  obtain ⟨hallow, hends, herr⟩ := hfollows
  have hsurvives : result = .ok () := by
    rcases result with (err | m) | _
    · exact absurd rfl (herr err)
    · obtain ⟨required, signatures, hphase, hnot⟩ := hends.counted m rfl
      obtain ⟨seen, e, rfl, hcounts⟩ := counts_of_counted hallow hphase
      exact absurd (hrep seen e [] required signatures rfl hcounts) hnot
    · rfl
  refine ⟨hsurvives, ?_, ?_⟩
  · rintro seen e rest required signatures rfl hcounts
    have hphase := counted_of_counts hallow hcounts
    have hfits := hrep seen e rest required signatures rfl hcounts
    cases rest with
    | nil =>
        obtain ⟨m, hm⟩ := hends.panics required signatures hphase
        rw [hsurvives] at hm
        cases hm
    | cons e' rest =>
        have hsplit : seen ++ e :: e' :: rest = (seen ++ [e]) ++ e' :: rest := by simp
        rw [hsplit, Protocol.allowed_append, hphase] at hallow
        rw [← hallow.2.1.2.2 hfits]
        constructor
        · rintro ⟨x, rest', heq⟩
          cases heq
          rfl
        · intro hop
          obtain ⟨o, x⟩ := e'
          obtain rfl : o = .rpc (.connect cfg.getEthRpc) := hop
          exact ⟨x, rest, rfl⟩
  · intro seen e rest required signatures heq hcounts hnot
    exact absurd (hrep seen e rest required signatures heq hcounts) hnot

theorem representable_of_countsExactly (h : CountsExactly lib cfg data tr result) :
    NumbersRepresentable tr := by
  intro seen e rest required signatures heq hcounts
  by_contra hnot
  obtain ⟨⟨err, hrun⟩, -⟩ := h.released seen e rest required signatures heq hcounts hnot
  have hfollows := Prog.Follows.of_runs counting_processMessage hrun
    (Protocol.admitted_of_all _ (fun _ _ _ => trivial) _ _)
  obtain ⟨hallow, hends⟩ := hfollows
  obtain ⟨m, hm⟩ := hends.panics required signatures (counted_of_counts hallow hcounts)
  cases hm

/-- **The signature count.** A round goes on with the next message, executes exactly the
blobs of `65 * required + 1` bytes and turns a number it cannot represent into an error,
all of it, exactly when no blob is handed out for such a number. -/
theorem counts_exactly_iff_representable (hrun : (handle lib cfg data).Runs tr result) :
    CountsExactly lib cfg data tr result ↔ NumbersRepresentable tr :=
  ⟨representable_of_countsExactly, countsExactly_of_representable hrun⟩

end

/-! ### Two numbers -/

/-- Everything succeeds, and this many signatures are required. -/
def requiring (required : U256) : Oracle World.any := fun s r =>
  match r with
  | .view (.requiredSignatures ..) => (.ok required, ())
  | r => Deployment.relay true s r

/-- A resumed pass over a message whose blob has 131 bytes. -/
def resumed (required : U256) : Trace Calls × Except (Exit BridgeValidatorError) Unit :=
  Deployment.runAlone (requiring required) (handle Deployment.externals Deployment.config
    ⟨.AmbGc (.repeatByte 20 0x12) ⟨[7], [1, 2, 3]⟩, 1, .foreign⟩)

/-- Two signatures are required, and the blob with two is executed. -/
theorem counts_exactly_iff_representable_two :
    (resumed 2).1.any (fun e => e.op matches .rpc (.connect "http://eth-el")) = true ∧
    CountsExactly Deployment.externals Deployment.config
      ⟨.AmbGc (.repeatByte 20 0x12) ⟨[7], [1, 2, 3]⟩, 1, .foreign⟩ (resumed 2).1 (resumed 2).2 := by
  have hnumbers : ((resumed 2).1.all fun e => (requiredAnswer e).all fun required =>
      decide (65 * required.toNat + 1 ≤ u64Max)) = true := by decide +kernel
  have hrep : NumbersRepresentable (resumed 2).1 := by
    rintro seen e rest required signatures heq ⟨⟨e', he', hanswer⟩, -⟩
    rw [heq] at hnumbers
    have hnumber := List.all_eq_true.mp hnumbers e' (List.mem_append_left _ he')
    rw [hanswer] at hnumber
    show 65 * required.toNat + 1 ≤ u64Max
    exact of_decide_eq_true hnumber
  exact ⟨by decide +kernel,
    (counts_exactly_iff_representable (Deployment.runAlone_runs _ _)).mpr hrep⟩

/-- The bridge says 2 ^ 64, and the task is gone. -/
theorem sender_lost_to_required_signatures :
    ¬ ∀ (lib : Externals) (cfg : Config) (data : SenderData) (tr : Trace Calls)
      (result : Except (Exit BridgeValidatorError) Unit),
      (handle lib cfg data).Runs tr result → CountsExactly lib cfg data tr result := by
  intro hclaim
  have hsurvives : (resumed 18446744073709551616).2 = .ok () :=
    (hclaim _ _ _ _ _ (Deployment.runAlone_runs _ _)).survives
  have hlost : (resumed 18446744073709551616).2.isOk = false := by decide +kernel
  rw [hsurvives] at hlost
  cases hlost

end OnChainSender

end BridgeValidator
