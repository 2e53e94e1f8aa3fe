import BridgeValidator.Backlog
import BridgeValidator.Provenance

/-!
# What becomes of a message

A row leaves the table in one way only: the sender deletes it at the end of a pass that was
about the very log the row was made of, and the pass has seen the message attested, or its
own transaction mined, or a blob it takes for malformed. Where nothing goes wrong every
message ends so, or is left in the table with all its retries spent.
-/

namespace BridgeValidator

open Interaction OnChainSender

variable {W : World} {lib : Externals}

/-! ## The evidence of a whole round -/

/-- The release after an error is no exception. -/
theorem OnChainSender.audit_handle {cfg : Config} {data : SenderData} :
    Act.Follows (audit lib cfg data.on_chain_calldata) [] (handle lib cfg data)
      fun _ _ => True := by
  refine Act.follows_bind.mpr (Act.follows_attempt.mpr (audit_processMessage.mono ?_))
  rintro seen ((e | m) | a) hseen
  · refine Act.follows_bind.mpr (Act.follows_attempt.mpr
      ((audit_incrementRetryCount hseen).mono ?_))
    rintro _ ((_ | _) | _) - <;> trivial
  · trivial
  · trivial

namespace Sys

variable {s t s₀ : Sys W} {l : Label} {ls : List Label} {id : Int} {r r' : EventLog}

/-! ## The log of a row -/

/-- A known row keeps its mode and its log. -/
theorem Step.log_kept (hs : s.Coherent lib) (hk : s.shared.db.Keyed) (h : s.Step lib l t)
    (hid : id < s.shared.db.next_id) (hr' : t.row? id = some r') :
    ∃ r, s.row? id = some r ∧ r'.bridge_mode = r.bridge_mode ∧ r'.log_data = r.log_data := by
  have hrow := h.rowStep hs hk id
  generalize t.row? id = after at hrow hr'
  cases hrow with
  | same _ => exact ⟨r', hr', rfl, rfl⟩
  | inserted hnew => exact absurd hnew hid.ne
  | claimed hr | staged hr | released hr | checked hr =>
      obtain rfl := Option.some.inj hr'
      exact ⟨_, hr, rfl, rfl⟩
  | deleted => cases hr'

/-- An id stays drawn, and what is found under it is the log it was drawn for. -/
theorem log_kept_of_run (h : (system lib W).Reachable s) (hr : s.row? id = some r)
    (hrun : (system lib W).Run s ls t) : id < t.shared.db.next_id ∧
      ∀ r', t.row? id = some r' → r'.bridge_mode = r.bridge_mode ∧ r'.log_data = r.log_data := by
  induction hrun with
  | nil =>
      refine ⟨(owned_of_reachable h).keyed.lt_next_of_row? hr, fun r' hr' => ?_⟩
      obtain rfl := Option.some.inj (hr.symm.trans hr')
      exact ⟨rfl, rfl⟩
  | @snoc ls t l u hrun hstep ih =>
      obtain ⟨hdrawn, hkept⟩ := ih
      have ht := hrun.reachable h
      have hk := (owned_of_reachable ht).keyed
      refine ⟨hdrawn.trans_le (hstep.next_id_le hk), fun r' hr' => ?_⟩
      obtain ⟨r₁, hr₁, hmode, hdata⟩ := hstep.log_kept (coherent_of_reachable ht) hk hdrawn hr'
      obtain ⟨hmode₁, hdata₁⟩ := hkept r₁ hr₁
      exact ⟨hmode.trans hmode₁, hdata.trans hdata₁⟩

/-- The row of an id is the one the run is known to have made for it. -/
theorem log_of_known {mode : BridgeMode} {log_data : Json} (h₀ : (system lib W).init s₀)
    (h : Known lib s₀ ls s id mode log_data) (hr : s.row? id = some r) :
    mode = r.bridge_mode ∧ log_data = r.log_data := by
  obtain ⟨origin, rfl, rfl, ls₁, m, l, m', ls₂, -, hbefore, hstep, hstored, hafter⟩ := h
  have hmade : (system lib W).Reachable m' := (hbefore.snoc hstep).reachable ⟨s₀, [], h₀, .nil⟩
  obtain ⟨-, hkept⟩ := log_kept_of_run hmade hstored.row hafter
  obtain ⟨hmode, hdata⟩ := hkept r hr
  exact ⟨hmode.symm, hdata.symm⟩

/-! ## The end of a row -/

/-- With this step the sender deletes the row, at the end of a pass that was about what the
log of the row asks for. -/
structure Concludes (lib : Externals) (s : Sys W) (r : EventLog) (l : Label) (request : Request)
    (round : Running) (data : SenderData) : Prop where
  delete : l = .call .on_chain_sender ⟨.db (.deleteEventLog r.id), .ok ()⟩
  running : s.running .on_chain_sender = some round
  job : round.job = .send data
  row : data.event_log_id = r.id
  asked : requestOf lib r.bridge_mode r.log_data = .ok request
  calldata : request.EncodedAs lib s.config data.on_chain_calldata
  /-- the status flag of a receipt is not looked at -/
  evidence : MayDelete lib s.config data.on_chain_calldata round.trace ∨ EndsInFailure round.trace

end Sys

/-- **No row is dropped.** In every run, whatever is answered and however often the process is
started anew, a row leaves the table only by the sender's DELETE, after a pass over what the
log of that row asks for and on the evidence this pass has seen. -/
theorem dropped_row_is_concluded {s₀ s t : Sys W} {ls : List Label} {l : Label} {id : Int}
    {r : EventLog} (h₀ : (system lib W).init s₀) (hrun : (system lib W).Run s₀ ls s)
    (hstep : s.Step lib l t) (hr : s.row? id = some r) (hgone : t.row? id = none) :
    ∃ request round data, s.Concludes lib r l request round data := by
  have hreach : (system lib W).Reachable s := ⟨s₀, ls, h₀, hrun⟩
  have hs := coherent_of_reachable hreach
  obtain ⟨rfl, -⟩ := hstep.deleted hs (owned_of_reachable hreach).keyed hr hgone
  cases hstep with
  | @call _ round _ k _ sh hround hrest hans =>
      obtain ⟨-, data, hjob, -, hid⟩ := hs.sender_allows hround hrest rfl
      have hfollows : Act.Follows (audit lib s.config data.on_chain_calldata) []
          ((Job.send data).prog lib s.config) fun _ _ => True := by
        refine Act.follows_bind.mpr (audit_handle.mono ?_)
        rintro _ (_ | _) - <;> trivial
      have hevidence := hs.allows hround hrest hjob hfollows
        (Protocol.admitted_of_all _ (fun _ _ _ => trivial) _ _)
      rw [Protocol.after_eq_append fun _ _ _ => rfl] at hevidence
      obtain ⟨mode, log_data, request, hknown, hrequest, hcalldata⟩ :=
        (sourced_of_run h₀ hrun).sending round data hround hjob
      rw [← hid] at hknown
      obtain ⟨rfl, rfl⟩ := Sys.log_of_known h₀ hknown hr
      obtain rfl := Db.row?_id hr
      exact ⟨request, round, data, rfl, hround, hjob, hid.symm, hrequest, hcalldata, hevidence⟩

/-- An affirmation, deleted after its transaction was mined. -/
theorem dropped_row_is_concluded_affirmed :
    ∃ (s : Sys World.any) (l : Label) (r : EventLog) (request : Request) (round : Running)
      (data : SenderData), s.row? 1 = some r ∧
        s.Concludes Deployment.externals r l request round data := by
  obtain ⟨p, ls, t, hfirst, -, -, -, hrest, hlabels, hcheck⟩ := Deployment.exists_path
    [.index .ETHAmb (Deployment.lookups (.repeatByte 32 0xaa)),
      .process .msg_processor_1 (Deployment.lookups (.repeatByte 32 0xaa)),
      .send (Deployment.relay true)]
    (fun q => q.1.any (Label.claims 1) && (q.2.row? 1).isNone) (by decide +kernel)
  simp only [Bool.and_eq_true, List.any_eq_true, Option.isNone_iff_eq_none] at hcheck
  obtain ⟨⟨l, hl, hclaims⟩, hgone⟩ := hcheck
  obtain ⟨k, hk, rfl⟩ := List.getElem_of_mem hl
  rw [← hlabels k hk] at hclaims
  have h₀ : (system Deployment.externals World.any).init (p.state 0) :=
    ⟨Deployment.config, (), trivial, hfirst⟩
  have hreach : (system Deployment.externals World.any).Reachable (p.state k) :=
    ⟨_, _, h₀, p.run k⟩
  obtain ⟨-, -, r, -, -, -, hr⟩ := (p.step k).claims (owned_of_reachable hreach).keyed hclaims
  have hthere : (p.state (k + 1)).row? 1 ≠ none := by
    rw [hr]
    exact Option.some_ne_none _
  have hlost : ¬(p.state ls.length).row? 1 ≠ none := by
    rw [(hrest _ le_rfl).1]
    exact not_not.mpr hgone
  obtain ⟨j, -, hj, hj'⟩ := p.exists_loss (P := fun s => s.row? 1 ≠ none) hk hthere hlost
  obtain ⟨r', hr'⟩ := Option.ne_none_iff_exists'.mp hj
  obtain ⟨request, round, data, hends⟩ :=
    dropped_row_is_concluded h₀ (p.run j) (p.step j) hr' (not_not.mp hj')
  exact ⟨_, _, r', request, round, data, hr', hends⟩

section

variable {p : (system lib W).Path} {n : Nat} {id : Int} {r : EventLog}

/-- A row that is gone at some point went with a step before that. -/
theorem exists_concludes (h₀ : (system lib W).init (p.state 0)) (hr : (p.state n).row? id = some r)
    {m : Nat} (hm : n ≤ m) (hgone : (p.state m).row? id = none) :
    ∃ j r' request round data, n ≤ j ∧ (p.state j).row? id = some r' ∧
      r'.bridge_mode = r.bridge_mode ∧ r'.log_data = r.log_data ∧
      (p.state j).Concludes lib r' (p.label j) request round data := by
  have hhad : (p.state n).row? id ≠ none := by
    rw [hr]
    exact Option.some_ne_none r
  obtain ⟨j, hj, hthere, hlost⟩ :=
    p.exists_loss (P := fun s => s.row? id ≠ none) hm hhad (not_not.mpr hgone)
  obtain ⟨r', hr'⟩ := Option.ne_none_iff_exists'.mp hthere
  obtain ⟨request, round, data, hends⟩ :=
    dropped_row_is_concluded h₀ (p.run j) (p.step j) hr' (not_not.mp hlost)
  obtain ⟨i, rfl⟩ := Nat.exists_eq_add_of_le hj
  have hreach : (system lib W).Reachable (p.state n) := ⟨_, _, h₀, p.run n⟩
  obtain ⟨hmode, hdata⟩ := (Sys.log_kept_of_run hreach hr ((p.drop n).run i)).2 r' hr'
  exact ⟨n + i, r', request, round, data, hj, hr', hmode, hdata, hends⟩

end

/-- **Every message comes to an end.** In every endless run in which nothing goes wrong,
everybody is diligent and the processors poll on, a row that is in the table at some point is
deleted at the end of a pass over what its log asks for, or stays in the table for ever with
all its retries spent and nobody working on it. -/
theorem every_message_ends {cfg : Config} {w : W.State} (p : (system lib W).Path)
    (hboot : p.state 0 = Sys.boot cfg Db.empty w) (hw : W.init w)
    (hcareful : ∀ k, (p.state k).Careful lib (p.label k)) (ha : Attentive p)
    (hceiling : ∀ k, (p.label k).keepsCeiling cfg.retryCeiling = true) {n : Nat} {id : Int}
    {r : EventLog} (hr : (p.state n).row? id = some r)
    (hbehind : ∀ k, n ≤ k → ∀ id r', (p.state k).row? id = none →
      (p.state (k + 1)).row? id = some r' → ¬claimLE r' r) :
    (∃ j r' request round data, n ≤ j ∧ (p.state j).row? id = some r' ∧
      r'.bridge_mode = r.bridge_mode ∧ r'.log_data = r.log_data ∧
      (p.state j).Concludes lib r' (p.label j) request round data) ∨
    ∃ m, ∀ k, m ≤ k → ∃ r', (p.state k).row? id = some r' ∧ r'.is_processed = some false ∧
      r'.retry_count = some cfg.retryCeiling ∧ id ∉ (p.state k).held := by
  obtain ⟨htended, hwithin, hmarked⟩ := invariants_of_path hboot hcareful hceiling
  obtain ⟨m, hm⟩ := Filter.eventually_atTop.mp
    (eventually_triedOut htended hcareful ha hwithin hmarked hceiling hr hbehind)
  by_cases hgone : ∃ k, n ≤ k ∧ (p.state k).row? id = none
  · obtain ⟨k, hk, hnone⟩ := hgone
    exact Or.inl (exists_concludes ⟨cfg, w, hw, hboot⟩ hr hk hnone)
  · push Not at hgone
    refine Or.inr ⟨max m n, fun k hk => ?_⟩
    obtain ⟨r', hr'⟩ := Option.ne_none_iff_exists'.mp (hgone k ((le_max_right m n).trans hk))
    obtain ⟨hfree, hretries⟩ := hm k ((le_max_left m n).trans hk) r' hr'
    refine ⟨r', hr', hfree, hretries, fun hheld => ?_⟩
    -- a held row is claimed
    obtain ⟨r₁, hr₁, hclaimed⟩ := (hwithin k).owned.held_row hheld
    obtain rfl := Option.some.inj (hr'.symm.trans hr₁)
    cases hfree.symm.trans hclaimed

/-- An affirmation for which no contract can be reached. -/
theorem every_message_ends_exhausted :
    ∃ (p : (system Deployment.externals World.any).Path) (n : Nat) (r : EventLog),
      (p.state n).row? 1 = some r ∧
      ((∃ j r' request round data, n ≤ j ∧ (p.state j).row? 1 = some r' ∧
        r'.bridge_mode = r.bridge_mode ∧ r'.log_data = r.log_data ∧
        (p.state j).Concludes Deployment.externals r' (p.label j) request round data) ∨
      ∃ m, ∀ k, m ≤ k → ∃ r', (p.state k).row? 1 = some r' ∧ r'.is_processed = some false ∧
        r'.retry_count = some Deployment.config.retryCeiling ∧ 1 ∉ (p.state k).held) := by
  obtain ⟨p, n, hboot, hcareful, ha, hceiling, hquiet, hthere⟩ := Deployment.exists_exhausted
  have hw := (invariants_of_path hboot hcareful hceiling).2.1
  obtain ⟨r, hr⟩ := Option.ne_none_iff_exists'.mp (hthere n le_rfl)
  refine ⟨p, n, r, hr, every_message_ends p hboot trivial hcareful ha hceiling hr ?_⟩
  intro k hk id r' hrow hr'
  cases ((p.step k).row?_none (hw k).coherent (hw k).owned.keyed (hquiet k hk) hrow).symm.trans
    hr'

end BridgeValidator
