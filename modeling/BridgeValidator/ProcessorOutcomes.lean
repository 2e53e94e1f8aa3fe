import BridgeValidator.Ownership
import BridgeValidator.XdaiMessage

/-!
# What becomes of a claimed row in the processor

Everything between the claim and the hand-over is pure, and no exit of it
gives the row back. So a claimed row reaches the sender exactly when its log
decodes, the key it needs is there, and the channel is open; over a whole run
of such claims the processor's books are balanced.
-/

namespace BridgeValidator

open Interaction

variable {W : World} {lib : Externals} {cfg : Config} {row : EventLogRow}

namespace MessageProcessor

/-- The log decodes, the mode is known, and what has to be signed can be. -/
def Processable (lib : Externals) (cfg : Config) (row : EventLogRow) : Prop :=
  ∃ log, lib.fromValue row.log_data = .ok log ∧
    match row.bridge_mode with
    | .AMB_ETH => ∃ encodedData, lib.decodeAmbAffirmation log = .ok encodedData
    | .AMB_GC => ∃ encodedData signer signature, lib.decodeAmbSignature log = .ok encodedData ∧
        IsSigner lib cfg.amb_validator_private_key signer ∧
        lib.signMessage signer encodedData = .ok signature
    | .XDAI_ETH => ∃ fields, lib.decodeXdaiAffirmation log = .ok fields
    | .XDAI_GC => ∃ recipient value nonce token signer signature,
        lib.decodeXdaiSignature log = .ok (recipient, value, nonce, token) ∧
        IsSigner lib cfg.xdai_validator_private_key signer ∧
        lib.signMessage signer (xdaiMessageBytes cfg recipient value nonce token) = .ok signature
    | .other _ => False

theorem orErr_ok {α : Type} (err : String → BridgeValidatorError) (a : α) :
    orErr err (.ok a) = pure a := rfl

theorem orErr_cases {α : Type} (err : String → BridgeValidatorError) (r : Except String α) :
    (∃ a, r = .ok a ∧ orErr err r = pure a) ∨
    ((∀ a, r ≠ .ok a) ∧ ∃ e, orErr err r = Act.throw e) := by
  cases r with
  | error e => exact Or.inr ⟨by simp, err e, rfl⟩
  | ok a => exact Or.inl ⟨a, rfl, rfl⟩

theorem loadSigner_cases (lib : Externals) (key : Option String) (var : String) :
    (∃ signer, IsSigner lib key signer ∧ loadSigner lib key var = pure signer ∧
      ∀ signer', IsSigner lib key signer' → signer' = signer) ∨
    ((∀ signer, ¬IsSigner lib key signer) ∧ ∃ e, loadSigner lib key var = Act.throw e) := by
  cases key with
  | none => exact Or.inr ⟨by simp [IsSigner], _, rfl⟩
  | some text =>
      rcases orErr_cases .KeyParse (lib.parseKey text) with ⟨signer, hparse, heq⟩ | ⟨hno, e, heq⟩
      · refine Or.inl ⟨signer, ⟨text, rfl, hparse⟩, heq, ?_⟩
        rintro signer' ⟨_, ⟨⟩, hparse'⟩
        exact Except.ok.inj (hparse'.symm.trans hparse)
      · exact Or.inr ⟨by simp [IsSigner, hno], e, heq⟩

/-- Signing with a configured key succeeds, or it stops the program. -/
theorem sign_cases (lib : Externals) (key : Option String) (var : String) (message : Bytes)
    (f : Bytes → Action Unit) :
    let p : Action Unit := do
      let signer ← loadSigner lib key var
      let signature ← orErr .Sign (lib.signMessage signer message)
      f signature
    (∃ signer signature, IsSigner lib key signer ∧
      lib.signMessage signer message = .ok signature ∧ p = f signature) ∨
    ((∀ signer signature, IsSigner lib key signer →
      lib.signMessage signer message ≠ .ok signature) ∧ ∃ result, p = Prog.pure result) := by
  rcases loadSigner_cases lib key var with ⟨signer, hsigner, heq, hunique⟩ | ⟨hno, e, heq⟩
  · simp only [heq, Act.pure_andThen]
    rcases orErr_cases .Sign (lib.signMessage signer message) with
      ⟨signature, hsign, heq⟩ | ⟨hno, e, heq⟩
    · rw [heq]
      exact Or.inl ⟨signer, signature, hsigner, hsign, rfl⟩
    · rw [heq]
      refine Or.inr ⟨?_, _, rfl⟩
      intro signer' signature hsigner'
      rw [hunique signer' hsigner']
      exact hno signature
  · simp only [heq]
    exact Or.inr ⟨fun signer' _ hsigner' => absurd hsigner' (hno signer'), _, rfl⟩

/-- Either the row is handed over, or the program stops without a call. -/
theorem processMessageOrSkip_cases :
    (Processable lib cfg row ∧ ∃ calldata : OnChainCallData,
      calldata.bridgeMode = row.bridge_mode ∧
      processMessageOrSkip lib cfg row = handOver row calldata) ∨
    (¬Processable lib cfg row ∧ ∃ result, processMessageOrSkip lib cfg row = Prog.pure result) := by
  unfold processMessageOrSkip Processable
  rcases orErr_cases .LogJson (lib.fromValue row.log_data) with ⟨log, hlog, heq⟩ | ⟨hno, e, heq⟩
  · rw [heq, Act.pure_andThen]
    simp only [hlog, Except.ok.injEq, exists_eq_left']
    cases hmode : row.bridge_mode with
    | AMB_ETH =>
        simp only
        rcases orErr_cases .LogDecode (lib.decodeAmbAffirmation log) with
          ⟨encodedData, hdata, heq⟩ | ⟨hno, e, heq⟩
        · rw [heq]
          exact Or.inl ⟨⟨encodedData, hdata⟩, _, rfl, rfl⟩
        · rw [heq]
          exact Or.inr ⟨by simp [hno], _, rfl⟩
    | AMB_GC =>
        simp only
        rcases orErr_cases .LogDecode (lib.decodeAmbSignature log) with
          ⟨encodedData, hdata, heq⟩ | ⟨hno, e, heq⟩
        · rw [heq, Act.pure_andThen]
          rcases sign_cases lib _ _ encodedData _ with
            ⟨signer, signature, hsigner, hsign, heq⟩ | ⟨hno, hstop⟩
          · rw [heq]
            exact Or.inl ⟨⟨encodedData, signer, signature, hdata, hsigner, hsign⟩, _, rfl, rfl⟩
          · refine Or.inr ⟨?_, hstop⟩
            rintro ⟨encodedData', signer, signature, hdata', hsigner, hsign⟩
            obtain rfl := Except.ok.inj (hdata'.symm.trans hdata)
            exact hno signer signature hsigner hsign
        · rw [heq]
          exact Or.inr ⟨by simp [hno], _, rfl⟩
    | XDAI_ETH =>
        simp only
        rcases orErr_cases .LogDecode (lib.decodeXdaiAffirmation log) with
          ⟨fields, hdata, heq⟩ | ⟨hno, e, heq⟩
        · rw [heq]
          exact Or.inl ⟨⟨fields, hdata⟩, _, rfl, rfl⟩
        · rw [heq]
          exact Or.inr ⟨by simp [hno], _, rfl⟩
    | XDAI_GC =>
        simp only
        rcases orErr_cases .LogDecode (lib.decodeXdaiSignature log) with
          ⟨⟨recipient, value, nonce, token⟩, hdata, heq⟩ | ⟨hno, e, heq⟩
        · rw [heq, Act.pure_andThen]
          simp only [createXdaiMessage_eq, Act.orThrow_ok, Act.pure_andThen, hexDecode_message,
            orErr_ok]
          rcases sign_cases lib cfg.xdai_validator_private_key "XDAI_VALIDATOR_PRIV_KEY"
              (xdaiMessageBytes cfg recipient value nonce token) _ with
            ⟨signer, signature, hsigner, hsign, heq⟩ | ⟨hno, hstop⟩
          · refine Or.inl ⟨⟨recipient, value, nonce, token, signer, signature, hdata, hsigner,
              hsign⟩, _, ?_, heq⟩
            rfl
          · refine Or.inr ⟨?_, hstop⟩
            rintro ⟨recipient', value', nonce', token', signer, signature, hdata', hsigner, hsign⟩
            obtain ⟨⟩ := Except.ok.inj (hdata'.symm.trans hdata)
            exact hno signer signature hsigner hsign
        · rw [heq]
          exact Or.inr ⟨by simp [hno], _, rfl⟩
    | other text => exact Or.inr ⟨not_false, _, rfl⟩
  · rw [heq]
    refine Or.inr ⟨?_, _, rfl⟩
    rintro ⟨log, hlog, -⟩
    exact hno log hlog

/-! ## One iteration -/

/-- The message for the row went into the channel. -/
def handsOver (id : Int) : Event Calls → Bool
  | ⟨.channelSend data, .ok ()⟩ => data.event_log_id == id
  | _ => false

/-- The row was made claimable again. -/
def releases (id : Int) : Event Calls → Bool
  | ⟨.db (.incrementRetryCount id'), .ok ()⟩ => id' == id
  | _ => false

/-- The receiver was gone. -/
def channelClosed : Event Calls → Bool
  | ⟨.channelSend _, .error _⟩ => true
  | _ => false

/-- An iteration that claims a row makes at most one more call, and that one
only for a row that can be processed. -/
theorem runs_iteration {tr : Trace Calls} {result : Except (Exit BridgeValidatorError) Unit}
    {max : Int} (hr : (iteration lib cfg).Runs tr result)
    (hclaim : ⟨.db (.claim max), .ok (some row)⟩ ∈ tr) :
    (Processable lib cfg row ∧ ∃ data x, row.HandedOverAs data ∧
      tr = [⟨.db (.claim cfg.retryCeiling), .ok (some row)⟩, ⟨.channelSend data, x⟩]) ∨
    (¬Processable lib cfg row ∧ tr = [⟨.db (.claim cfg.retryCeiling), .ok (some row)⟩]) := by
  obtain ⟨x, rest, rfl, hrest⟩ := hr
  match x, hrest with
  | .error e, hrest =>
      obtain ⟨rfl, -⟩ := hrest
      simp at hclaim
  | .ok none, hrest =>
      obtain ⟨rfl, -⟩ := hrest
      simp at hclaim
  | .ok (some row'), hrest =>
      have hafter : Prog.Runs (Act.attempt (processMessageOrSkip lib cfg row') >>=
          fun _ => (pure () : Action Unit) : Action Unit) rest result := hrest
      rcases @processMessageOrSkip_cases lib cfg row' with
        ⟨hproc, calldata, hmode, heq⟩ | ⟨hproc, stopped, heq⟩
      · rw [heq] at hafter
        obtain ⟨x, rest', rfl, hdone⟩ := hafter
        have hnil : rest' = [] := by
          cases x <;> exact hdone.1
        subst hnil
        obtain ⟨-, rfl⟩ : max = cfg.retryCeiling ∧ row = row' := by simpa using hclaim
        exact Or.inl ⟨hproc, _, x, ⟨rfl, rfl, hmode⟩, rfl⟩
      · rw [heq] at hafter
        have hnil : rest = [] := by
          rcases stopped with (e | m) | a <;> exact hafter.1
        subst hnil
        obtain ⟨-, rfl⟩ : max = cfg.retryCeiling ∧ row = row' := by simpa using hclaim
        exact Or.inr ⟨hproc, rfl⟩

/-- A claimed row is handed over once or given back exactly when it can be
processed and the channel is open. -/
theorem served_iff {tr : Trace Calls} {result : Except (Exit BridgeValidatorError) Unit}
    {max : Int} (hr : (iteration lib cfg).Runs tr result)
    (hclaim : ⟨.db (.claim max), .ok (some row)⟩ ∈ tr) :
    (tr.countP (handsOver row.id) = 1 ∨ tr.any (releases row.id) = true) ↔
      Processable lib cfg row ∧ tr.any channelClosed = false := by
  rcases runs_iteration hr hclaim with ⟨hproc, data, x, hdata, rfl⟩ | ⟨hproc, rfl⟩
  · cases x with
    | error e => simp [handsOver, releases, channelClosed]
    | ok a => simp [handsOver, channelClosed, hdata.id, hproc]
  · simp [handsOver, releases, hproc]

/-- A row that cannot be processed is claimed, and that is all. -/
theorem exists_run_of_not_processable (h : ¬Processable lib cfg row) :
    ∃ result,
      (iteration lib cfg).Runs [⟨.db (.claim cfg.retryCeiling), .ok (some row)⟩] result := by
  rcases @processMessageOrSkip_cases lib cfg row with ⟨hproc, -⟩ | ⟨-, stopped, heq⟩
  · exact absurd hproc h
  · have hrest : ∃ result, Prog.Runs (Act.attempt (processMessageOrSkip lib cfg row) >>=
        fun _ => (pure () : Action Unit) : Action Unit) [] result := by
      rw [heq]
      rcases stopped with (e | m) | a <;> exact ⟨_, rfl, rfl⟩
    obtain ⟨result, hrest⟩ := hrest
    exact ⟨result, .ok (some row), [], rfl, hrest⟩

/-! ## Over runs -/

/-- The protocol, when every claimed row can be processed and the channel is
open. -/
def reliable (lib : Externals) (cfg : Config) : Protocol Calls (Option EventLogRow) where
  allows := (protocol cfg).allows
  admits _
    | .db (.claim _), .ok (some row) => Processable lib cfg row
    | .channelSend _, .error _ => False
    | _, _ => True
  next := heldAfter

/-- Then an iteration ends with empty hands. -/
theorem reliable_iteration :
    Act.Follows (reliable lib cfg) none (iteration lib cfg) fun held _ => held = none := by
  refine Act.follows_bind.mpr (Act.follows_attempt.mpr (follows_sql.mpr
    ⟨⟨rfl, rfl⟩, ?_, fun _ _ => rfl⟩))
  rintro (_ | row) hadm
  · rfl
  · refine Act.follows_bind.mpr (Act.follows_attempt.mpr ?_)
    rcases @processMessageOrSkip_cases lib cfg row with
      ⟨-, calldata, hmode, heq⟩ | ⟨hno, -⟩
    · rw [heq]
      refine Act.follows_bind.mpr (follows_await.mpr ⟨⟨row, rfl, rfl, rfl, hmode⟩, ?_⟩)
      rintro (e | a) hopen
      · exact hopen.elim
      · exact rfl
    · exact absurd hadm hno

end MessageProcessor

namespace Label

variable (lib : Externals) (cfg : Config) (k : ProcessorId) (id : Int)

/-- Processor `k` claims the row. -/
def claimedBy : Label → Bool
  | .call (.processor k') ⟨.db (.claim _), .ok (some row)⟩ => k' == k && row.id == id
  | _ => false

/-- Processor `k` hands it over. -/
def handedOverBy : Label → Bool
  | .call (.processor k') ⟨.channelSend data, .ok ()⟩ => k' == k && data.event_log_id == id
  | _ => false

/-- The step does not get in the processors' way: what is claimed can be
processed, the channel is open, and the process lives on. -/
def Smooth : Label → Prop
  | .call _ ⟨.db (.claim _), .ok (some row)⟩ => MessageProcessor.Processable lib cfg row
  | .call _ ⟨.channelSend _, .error _⟩ => False
  | .panic _ => False
  | .restart _ => False
  | _ => True

end Label

namespace Sys

/-- 1 if processor `k` has the row in hand, else 0. -/
def inHandOf (s : Sys W) (k : ProcessorId) (id : Int) : Nat :=
  if (s.claimed k).any (fun row => row.id == id) then 1 else 0

/-- A smooth run so far: what each processor has claimed it has handed over or
has in hand. -/
structure Balanced (lib : Externals) (cfg : Config) (s : Sys W) (ls : List Label) : Prop where
  coherent : s.Coherent lib
  config_eq : s.config = cfg
  smooth : ∀ v r, s.running v = some r → ∀ e ∈ r.trace, (Label.call v e).Smooth lib cfg
  books : ∀ k id, ls.countP (Label.claimedBy k id) =
    ls.countP (Label.handedOverBy k id) + s.inHandOf k id

variable {s t : Sys W} {l : Label} {ls : List Label}

theorem inHandOf_congr {k : ProcessorId} {id : Int} (h : t.claimed k = s.claimed k) :
    t.inHandOf k id = s.inHandOf k id := by
  rw [inHandOf, inHandOf, h]

theorem admits_of_smooth {v : Service} {o : Op} {x : o.Ans} {held : Option EventLogRow}
    (hl : (Label.call v ⟨o, x⟩).Smooth lib cfg) :
    (MessageProcessor.reliable lib cfg).admits held o x := by
  cases o with
  | rpc r => trivial
  | channelSend data =>
      cases x with
      | error e => exact hl
      | ok a => trivial
  | db st =>
      cases st with
      | claim max =>
          rcases x with e | (_ | row)
          · trivial
          · trivial
          · exact hl
      | _ => trivial

/-- What the reliable protocol remembers is what the processor has in hand. -/
theorem after_reliable (g : Option EventLogRow) (tr : Trace Calls) :
    (MessageProcessor.reliable lib cfg).after g tr =
      (MessageProcessor.protocol cfg).after g tr := by
  induction tr generalizing g with
  | nil => rfl
  | cons e tr ih => exact ih _

/-- A processor's round in progress follows the reliable protocol. -/
theorem Balanced.follows (h : s.Balanced lib cfg ls) {k : ProcessorId} {r : Running}
    (hr : s.running (.processor k) = some r) :
    Act.Follows (MessageProcessor.reliable lib cfg) (s.claimed k) r.rest
      fun held _ => held = none := by
  obtain ⟨hservice, hsteps⟩ := h.coherent _ r hr
  have hjob : r.job = .process k := by
    cases hj : r.job <;> simp_all [Job.service]
  have hround : Act.Follows (MessageProcessor.reliable lib cfg) none
      (Job.prog lib cfg (.process k)) fun held _ => held = none := by
    refine Act.follows_bind.mpr (MessageProcessor.reliable_iteration.mono ?_)
    rintro held (_ | _) hheld <;> exact hheld
  rw [hjob, h.config_eq] at hsteps
  have hadm : (MessageProcessor.reliable lib cfg).Admitted none r.trace :=
    Protocol.admitted_of_mem _ fun e he _ => admits_of_smooth (h.smooth _ r hr e he)
  have hfollows := Prog.Follows.steps hround hsteps hadm
  have hclaimed : s.claimed k = (MessageProcessor.reliable lib cfg).after none r.trace := by
    rw [after_reliable]
    simp only [claimed, hr, Option.bind_some, Running.claimed]
    rw [h.config_eq]
  rw [hclaimed]
  exact hfollows

/-- What a step adds to the books of processor `k` about row `id`. -/
def Books (k : ProcessorId) (id : Int) (s : Sys W) (l : Label) (t : Sys W) : Prop :=
  (if l.claimedBy k id then 1 else 0) + s.inHandOf k id =
    (if l.handedOverBy k id then 1 else 0) + t.inHandOf k id

theorem books_of_unchanged {k : ProcessorId} {id : Int} (hcl : t.claimed k = s.claimed k)
    (hc : l.claimedBy k id = false) (hh : l.handedOverBy k id = false) : Books k id s l t := by
  rw [Books, hc, hh, inHandOf_congr hcl]

/-- Calls of a processor move a row into its hand and out of it. -/
theorem Balanced.books_call (h : s.Balanced lib cfg ls) {v : Service} {r : Running} {o : Op}
    {c : o.Ans → Prog Calls (Except (Exit BridgeValidatorError) (Option Nat))} {x : o.Ans}
    {sh : Shared W} (hr : s.running v = some r) (hrest : r.rest = Prog.call o c)
    (hl : (Label.call v ⟨o, x⟩).Smooth lib cfg) (k : ProcessorId) (id : Int) :
    Books k id s (.call v ⟨o, x⟩) (s.advance v r ⟨o, x⟩ (c x) sh) := by
  by_cases hv : v = .processor k
  · subst hv
    have hcl := s.claimed_advance r ⟨o, x⟩ (c x) sh hr
    have hallow := (hrest ▸ h.follows hr).1
    generalize s.advance (.processor k) r ⟨o, x⟩ (c x) sh = t at *
    simp only [Books, inHandOf, hcl]
    cases o with
    | rpc r => exact hallow.elim
    | channelSend data =>
        obtain ⟨row, hheld, hdata⟩ := hallow
        cases x with
        | error e => exact hl.elim
        | ok a =>
            simp [Label.claimedBy, Label.handedOverBy, MessageProcessor.heldAfter, hheld, hdata.id]
    | db st =>
        cases st with
        | claim max =>
            obtain ⟨hnone, -⟩ := hallow
            rcases x with e | (_ | row) <;>
              simp [Label.claimedBy, Label.handedOverBy, MessageProcessor.heldAfter, hnone]
        | _ => exact hallow.elim
  · -- somebody else's call: neither the hand nor the books of `k` change
    have hcl := (s.advance_frame v r ⟨o, x⟩ (c x) sh).2.1 k (Ne.symm hv)
    refine books_of_unchanged hcl ?_ ?_
    · cases v with
      | processor k' =>
          have hk : (k' == k) = false := by simpa using hv
          unfold Label.claimedBy
          split <;> simp_all
      | _ => rfl
    · cases v with
      | processor k' =>
          have hk : (k' == k) = false := by simpa using hv
          unfold Label.handedOverBy
          split <;> simp_all
      | _ => rfl

theorem Balanced.books_step (h : s.Balanced lib cfg ls) (hstep : s.Step lib l t)
    (hl : l.Smooth lib cfg) (k : ProcessorId) (id : Int) : Books k id s l t := by
  cases hstep with
  | index hidle => exact books_of_unchanged (claimed_begin hidle.1 k) rfl rfl
  | process hidle hsd => exact books_of_unchanged (claimed_begin hidle.1 k) rfl rfl
  | @recv data rest hidle hch =>
      have hpop : s.popChannel.running (Job.service (.send data)) = none := hidle.1
      exact books_of_unchanged (claimed_begin hpop k) rfl rfl
  | check hidle hfcr => exact books_of_unchanged (claimed_begin hidle.1 k) rfl rfl
  | call hr hrest hans => exact h.books_call hr hrest hl k id
  | @finish v r result hr hrest =>
      by_cases hv : v = .processor k
      · subst hv
        have hfollows := h.follows hr
        rw [hrest] at hfollows
        have hnone : s.claimed k = none := hfollows
        refine books_of_unchanged ?_ rfl rfl
        rw [hnone]
        simp [claimed, Sys.done]
      · refine books_of_unchanged ?_ rfl rfl
        simp [claimed, Sys.done, Function.update_of_ne (Ne.symm hv)]
  | panic hr hrest => exact hl.elim
  | exit hidle hexit => exact books_of_unchanged rfl rfl rfl
  | signal => exact books_of_unchanged rfl rfl rfl
  | tick h => exact books_of_unchanged rfl rfl rfl
  | restart => exact hl.elim

theorem balanced_run {db : Db} {w : W.State} (hrun : (system lib W).Run (boot cfg db w) ls t)
    (hl : ∀ l ∈ ls, l.Smooth lib cfg) : t.Balanced lib cfg ls := by
  induction hrun with
  | nil => exact ⟨coherent_boot, rfl, fun _ _ hr => (by cases hr), fun _ _ => rfl⟩
  | @snoc ls s l t hrun hstep ih =>
      have hs := ih fun l hmem => hl l (List.mem_append_left _ hmem)
      have hlast := hl l (List.mem_append_right _ (List.mem_singleton_self _))
      refine ⟨hs.coherent.step hstep, ?_, fun v r hr e he => ?_, ?_⟩
      · rw [← hs.config_eq]
        cases hstep with
        | restart => exact hlast.elim
        | _ => rfl
      · exact hl _ (call_mem_labels (.snoc hrun hstep) (fun _ => rfl) hr e he)
      · intro k id
        have hbooks := hs.books k id
        have hstep' := hs.books_step hstep hlast k id
        rw [Books] at hstep'
        rw [List.countP_append, List.countP_append, List.countP_singleton, List.countP_singleton]
        omega

end Sys

/-- **When the processor strands a claim.** An iteration hands the row it has
claimed over once, or gives it back, exactly when the row can be processed and
the channel is open. In the life of a process, over whatever table it finds, in which this
is so of every claim, a processor between two iterations has handed over every row as often
as it has claimed it. -/
theorem claims_are_handed_over (lib : Externals) (cfg : Config) :
    (∀ (tr : Trace Calls) (result : Except (Exit BridgeValidatorError) Unit) (max : Int)
      (row : EventLogRow), (MessageProcessor.iteration lib cfg).Runs tr result →
      ⟨.db (.claim max), .ok (some row)⟩ ∈ tr →
      ((tr.countP (MessageProcessor.handsOver row.id) = 1 ∨
          tr.any (MessageProcessor.releases row.id) = true) ↔
        MessageProcessor.Processable lib cfg row ∧
          tr.any MessageProcessor.channelClosed = false)) ∧
    ∀ (W : World) (db : Db) (w : W.State) (t : Sys W) (ls : List Label),
      (system lib W).Run (Sys.boot cfg db w) ls t → (∀ l ∈ ls, l.Smooth lib cfg) →
      ∀ k, t.running (.processor k) = none → ∀ id,
        ls.countP (Label.claimedBy k id) = ls.countP (Label.handedOverBy k id) := by
  refine ⟨fun tr result max row hr hclaim => MessageProcessor.served_iff hr hclaim, ?_⟩
  intro W db w t ls hrun hl k hk id
  have hbooks := (Sys.balanced_run hrun hl).books k id
  have hnone : t.inHandOf k id = 0 := by simp [Sys.inHandOf, Sys.claimed, hk]
  omega

/-- Smooth, as far as affirmations go. -/
def Deployment.smooth : Label → Bool
  | .call _ ⟨.db (.claim _), .ok (some row)⟩ =>
      (logFromValue row.log_data).isOk && row.bridge_mode == .AMB_ETH
  | .call _ ⟨.channelSend _, .error _⟩ => false
  | .panic _ => false
  | .restart _ => false
  | _ => true

theorem Deployment.smooth_sound {l : Label} (h : smooth l = true) :
    l.Smooth externals config := by
  unfold smooth at h
  split at h
  · rename_i row
    simp only [Bool.and_eq_true, beq_iff_eq] at h
    obtain ⟨hlog, hmode⟩ := h
    cases hvalue : logFromValue row.log_data with
    | error e => simp [hvalue, Except.isOk, Except.toBool] at hlog
    | ok log =>
        refine ⟨log, hvalue, ?_⟩
        rw [hmode]
        exact ⟨log.data, rfl⟩
  · cases h
  · cases h
  · cases h
  · rename_i hclaim hclosed hpanic hrestart
    unfold Label.Smooth
    split
    · exact absurd rfl (hclaim _ _ _)
    · exact absurd rfl (hclosed _ _ _)
    · exact absurd rfl (hpanic _)
    · exact absurd rfl (hrestart _)
    · trivial

/-- An affirmation, indexed, claimed and handed over. -/
theorem claims_are_handed_over_affirmation :
    ∃ (t : Sys World.any) (ls : List Label),
      (system Deployment.externals World.any).Run
        (Sys.boot Deployment.config Db.empty ()) ls t ∧
      ls.countP (Label.claimedBy .msg_processor_1 1) = 1 ∧
      ls.countP (Label.handedOverBy .msg_processor_1 1) = 1 := by
  have hboot : (Sys.boot Deployment.config Db.empty () : Sys World.any).Resting :=
    Sys.resting_boot
  obtain ⟨ls, t, hrun, ht, hp⟩ := Turn.exists_of_playAll
    [.index .ETHAmb (Deployment.lookups (.repeatByte 32 0xaa)),
      .process .msg_processor_1 (Deployment.lookups (.repeatByte 32 0xaa))]
    (fun q => q.1.all Deployment.smooth && q.1.countP (Label.claimedBy .msg_processor_1 1) == 1)
    Turn.sound_any hboot
    (show (Turn.playAll Deployment.externals _ _).any _ = true by decide +kernel)
  simp only [Bool.and_eq_true, beq_iff_eq, List.all_eq_true] at hp
  have hsmooth : ∀ l ∈ ls, l.Smooth Deployment.externals Deployment.config :=
    fun l hl => Deployment.smooth_sound (hp.1 l hl)
  have hbooks := (claims_are_handed_over Deployment.externals Deployment.config).2 World.any
    Db.empty () t ls hrun hsmooth .msg_processor_1 (ht.running _) 1
  exact ⟨t, ls, hrun, hp.2, hbooks ▸ hp.2⟩

/-- A row of the Gnosis AMB bridge. -/
def Deployment.signatureRow : EventLogRow where
  id := 1
  topic_key := (FixedBytes.repeatByte 32 0x77).debug
  bridge_mode := .AMB_GC
  log_data := Deployment.logToValue
    (Deployment.log (.repeatByte 20 0x12) 100 (.repeatByte 32 0xaa))
  block_number := some 100
  transaction_hash := some (FixedBytes.repeatByte 32 0xcc).debug
  is_processed := some false
  retry_count := some 0
  stage := some .home

/-- Without the key the row is claimed and then forgotten. -/
theorem claimed_row_is_forgotten :
    ¬ ∀ (lib : Externals) (cfg : Config) (tr : Trace Calls)
      (result : Except (Exit BridgeValidatorError) Unit) (max : Int) (row : EventLogRow),
      (MessageProcessor.iteration lib cfg).Runs tr result →
      ⟨.db (.claim max), .ok (some row)⟩ ∈ tr →
      tr.countP (MessageProcessor.handsOver row.id) = 1 ∨
        tr.any (MessageProcessor.releases row.id) = true := by
  intro hclaim
  have hno : ¬MessageProcessor.Processable Deployment.externals
      { Deployment.config with amb_validator_private_key := none } Deployment.signatureRow := by
    rintro ⟨log, -, encodedData, signer, signature, -, ⟨text, hkey, -⟩, -⟩
    cases hkey
  obtain ⟨result, hr⟩ := MessageProcessor.exists_run_of_not_processable hno
  have hserved := hclaim _ _ _ _ _ _ hr (List.mem_singleton_self _)
  simp [MessageProcessor.handsOver, MessageProcessor.releases] at hserved

end BridgeValidator
