import BridgeValidator.RowSteps
import BridgeValidator.Wiring

/-!
# Pending rows across restarts

A row that is pending says so in the table. Which chains the checker covers is worked
out anew by every process, from its environment and from what the providers answer at
start-up. A chain that leaves fcr mode in this way takes its pending rows with it: no
later cycle asks for them.
-/

namespace BridgeValidator

open Interaction

variable {W : World} {lib : Externals}

/-! ## Start-ups -/

/-- The provider accepted the `safe` tag. -/
def SafeProbe.serves : SafeProbe → Bool
  | .Block _ => true
  | .Empty => true
  | _ => false

/-- The provider said something about the tag. -/
def SafeProbe.answers : SafeProbe → Bool
  | .Unreachable => false
  | _ => true

/-- Some provider serves `safe`, or none has answered at all. -/
def servesSafe (responses : List HttpResponse) : Bool :=
  responses.any (fun x => (readSafeProbe x).serves) ||
    responses.all fun x => !(readSafeProbe x).answers

/-- The calls of the preflight of one chain, with these responses. -/
def probesOf (el_rpcs : List String) (responses : List HttpResponse) : Trace Calls :=
  List.zipWith (fun el_rpc x => (⟨.rpc (.ethGetBlockByNumber el_rpc .safe), x⟩ : Event Calls))
    el_rpcs responses

/-- What `Config::from_env` accepted, and what the providers of each chain that is to be
in fcr mode respond to the preflight. -/
structure StartUp where
  accepted : Config
  responses : Chain → List HttpResponse
  probed : ∀ c ∈ accepted.fcrChains, (responses c.1).length = c.2.length

namespace StartUp

/-- The process starts with `cfg`. -/
def Boots (u : StartUp) (cfg : Config) : Prop :=
  Prog.Runs (runFcrPreflight u.accepted)
    (u.accepted.fcrChains.flatMap fun c => probesOf c.2 (u.responses c.1)) (.ok cfg)

/-- The chain is configured for fcr mode and not downgraded. -/
def keepsFcr (u : StartUp) (chain : Chain) : Bool :=
  (u.accepted.modeForChain chain).isFcr && servesSafe (u.responses chain)

end StartUp

/-! ## What the preflight decides -/

namespace ChainSafeSupport

variable {support : ChainSafeSupport} {probes : List (String × HttpResponse)}

/-- The provider's response, taken into account. -/
def after (support : ChainSafeSupport) (p : String × HttpResponse) : ChainSafeSupport :=
  support.afterProbe p.1 (readSafeProbe p.2)

theorem foldl_supported : (probes.foldl after support).supported =
    (support.supported || probes.any fun p => (readSafeProbe p.2).serves) := by
  induction probes generalizing support with
  | nil => simp
  | cons p probes ih =>
      rw [List.foldl_cons, ih, List.any_cons, ← Bool.or_assoc]
      unfold after
      cases readSafeProbe p.2 <;> simp [afterProbe, SafeProbe.serves]

theorem foldl_reachable : (probes.foldl after support).reachable =
    (support.reachable || probes.any fun p => (readSafeProbe p.2).answers) := by
  induction probes generalizing support with
  | nil => simp
  | cons p probes ih =>
      rw [List.foldl_cons, ih, List.any_cons, ← Bool.or_assoc]
      unfold after
      cases readSafeProbe p.2 <;> simp [afterProbe, SafeProbe.answers]

end ChainSafeSupport

section

variable {el_rpcs : List String} {responses : List HttpResponse}

theorem runs_probeElRpcs {support : ChainSafeSupport}
    (hlen : responses.length = el_rpcs.length) :
    Prog.Runs (probeElRpcs support el_rpcs) (probesOf el_rpcs responses)
      (.ok ((el_rpcs.zip responses).foldl ChainSafeSupport.after support)) := by
  induction el_rpcs generalizing support responses with
  | nil =>
      obtain rfl := List.length_eq_zero_iff.mp hlen
      exact ⟨rfl, rfl⟩
  | cons el_rpc rest ih =>
      cases responses with
      | nil => cases hlen
      | cons x responses => exact ⟨x, _, rfl, ih (Nat.succ.inj hlen)⟩

theorem any_zip_responses (hlen : responses.length = el_rpcs.length) (p : HttpResponse → Bool) :
    ((el_rpcs.zip responses).any fun c => p c.2) = responses.any p := by
  have hsnd : (el_rpcs.zip responses).map Prod.snd = responses := List.map_snd_zip hlen.le
  conv => rhs; rw [← hsnd, List.any_map]
  rfl

/-- The preflight of a chain comes to the verdict the responses call for. -/
theorem runs_preflightSafeSupport (chain : Chain) (hlen : responses.length = el_rpcs.length) :
    ∃ support, Prog.Runs (preflightSafeSupport chain el_rpcs) (probesOf el_rpcs responses)
      (.ok support) ∧ support.keepsFcr = servesSafe responses := by
  refine ⟨_, runs_probeElRpcs hlen, ?_⟩
  rw [ChainSafeSupport.keepsFcr, ChainSafeSupport.foldl_supported,
    ChainSafeSupport.foldl_reachable, any_zip_responses hlen fun x => (readSafeProbe x).serves,
    any_zip_responses hlen fun x => (readSafeProbe x).answers, servesSafe,
    List.all_eq_not_any_not]
  simp

end

/-- The configuration after the verdicts on these chains. -/
def Config.downgrade (responses : Chain → List HttpResponse) (cfg : Config)
    (chains : List (Chain × List String)) : Config :=
  chains.foldl (fun cfg c =>
    if servesSafe (responses c.1) then cfg else cfg.setModeForChain c.1 .blockFinality) cfg

section

variable {cfg : Config} {responses : Chain → List HttpResponse} {chain : Chain}
  {chains : List (Chain × List String)}

theorem runs_preflightChains (hlen : ∀ c ∈ chains, (responses c.1).length = c.2.length) :
    Prog.Runs (preflightChains cfg chains)
      (chains.flatMap fun c => probesOf c.2 (responses c.1))
      (.ok (cfg.downgrade responses chains)) := by
  induction chains generalizing cfg with
  | nil => exact ⟨rfl, rfl⟩
  | cons c rest ih =>
      obtain ⟨chain, el_rpcs⟩ := c
      obtain ⟨support, hruns, hkeeps⟩ :=
        runs_preflightSafeSupport chain (hlen _ List.mem_cons_self)
      have hrest := fun c hc => hlen c (List.mem_cons_of_mem _ hc)
      refine Act.runs_andThen_ok.mpr ⟨_, support, _, List.flatMap_cons, hruns, ?_⟩
      rw [hkeeps, Config.downgrade, List.foldl_cons]
      split
      · exact ih hrest
      · exact ih hrest

theorem Config.modeForChain_setModeForChain {chain' : Chain} :
    (cfg.setModeForChain chain' .blockFinality).modeForChain chain = .fcr ↔
      cfg.modeForChain chain = .fcr ∧ chain' ≠ chain := by
  cases chain <;> cases chain' <;> simp [setModeForChain, modeForChain, default]

/-- A chain is left in fcr mode exactly where its verdict is. -/
theorem Config.modeForChain_downgrade :
    (cfg.downgrade responses chains).modeForChain chain = .fcr ↔
      cfg.modeForChain chain = .fcr ∧
        ∀ c ∈ chains, c.1 = chain → servesSafe (responses chain) = true := by
  induction chains generalizing cfg with
  | nil => simp [downgrade]
  | cons c rest ih =>
      have hstep : cfg.downgrade responses (c :: rest) =
          Config.downgrade responses (if servesSafe (responses c.1) then cfg
            else cfg.setModeForChain c.1 .blockFinality) rest := rfl
      rw [hstep, ih, List.forall_mem_cons]
      cases hserves : servesSafe (responses c.1) with
      | true =>
          rw [if_pos rfl]
          refine and_congr_right fun _ => (and_iff_right ?_).symm
          rintro rfl
          exact hserves
      | false =>
          rw [if_neg Bool.false_ne_true, modeForChain_setModeForChain, and_assoc]
          refine and_congr_right fun _ => and_congr_left fun _ => ?_
          constructor
          · intro hne heq
            exact absurd heq hne
          · rintro himp rfl
            cases hserves.symm.trans (himp rfl)

end

/-- The configuration the services get. -/
def StartUp.config (u : StartUp) : Config :=
  u.accepted.downgrade u.responses u.accepted.fcrChains

theorem StartUp.boots (u : StartUp) : u.Boots u.config := runs_preflightChains u.probed

/-- **What a start-up leaves in fcr mode**: the chains it was accepted for whose
providers have not turned `safe` down. -/
theorem StartUp.Boots.covers_iff {u : StartUp} {cfg : Config} (h : u.Boots cfg) {chain : Chain} :
    (∃ el_rpcs, (chain, el_rpcs) ∈ cfg.fcrChains) ↔ u.keepsFcr chain = true := by
  obtain rfl := Except.ok.inj (Prog.Runs.det h u.boots)
  have hfcr : (u.accepted.modeForChain chain).isFcr = true ↔
      u.accepted.modeForChain chain = .fcr := by
    cases u.accepted.modeForChain chain <;> decide
  rw [Config.mem_fcrChains_iff, StartUp.config, Config.modeForChain_downgrade,
    StartUp.keepsFcr, Bool.and_eq_true, hfcr]
  refine and_congr_right fun hmode => ?_
  obtain ⟨el_rpcs, hmem⟩ := Config.mem_fcrChains_iff.mpr hmode
  constructor
  · intro hall
    exact hall _ hmem rfl
  · intro hserves c _ _
    exact hserves

theorem Config.ne_nil_of_mem_fcrChains {cfg : Config} {c : Chain × List String}
    (h : c ∈ cfg.fcrChains) : c.2 ≠ [] := by
  simp only [Config.fcrChains, List.mem_append] at h
  rcases h with h | h
  · split at h
    · rw [List.mem_singleton.mp h]
      exact cfg.eth_rpc_ne
    · cases h
  · split at h
    · rw [List.mem_singleton.mp h]
      exact cfg.gc_rpc_ne
    · cases h

/-! ## Lifetimes over one database -/

/-- Every process has come through a start-up, which meets a condition on the database
it finds. -/
def lifetimesWith (lib : Externals) (W : World) (G : Sys W → StartUp → Prop) :
    Machine (Sys W) Label where
  init s := ∃ (u : StartUp) (cfg : Config) (w : W.State), u.Boots cfg ∧ W.init w ∧
    s = Sys.boot cfg Db.empty w
  step s l t := s.Step lib l t ∧ ∀ cfg, l = .restart cfg → ∃ u : StartUp, u.Boots cfg ∧ G s u

def lifetimes (lib : Externals) (W : World) : Machine (Sys W) Label :=
  lifetimesWith lib W fun _ _ => True

/-- The chains of the pending rows stay in fcr mode. -/
def Sys.KeptBy (s : Sys W) (u : StartUp) : Prop :=
  ∀ r ∈ s.shared.db.event_logs, r.fcr_status = some .pending →
    ∃ chain, r.bridge_mode ∈ FcrChecker.bridgeModes chain ∧ u.keepsFcr chain = true

/-- The start-ups that leave no pending row behind. -/
def covering (lib : Externals) (W : World) : Machine (Sys W) Label :=
  lifetimesWith lib W Sys.KeptBy

/-- A whole cycle: a call of `check_chain` for each chain in fcr mode, none of which has
failed. -/
structure FcrChecker.Completed (cfg : Config) (tr : Trace Calls)
    (parts : List ((Chain × List String) × Trace Calls)) : Prop where
  chains : parts.map Prod.fst = cfg.fcrChains
  trace : tr = (parts.map Prod.snd).flatten
  returned : ∀ p ∈ parts, Prog.Runs (checkChain cfg p.1.1 p.1.2) p.2 (.ok ())

/-- The call asks a provider for the block with this number. -/
def Op.looksUpBlock (block_number : Int) : Op → Bool
  | .rpc (.ethGetBlockByNumber _ (.number n)) => decide (n = block_number)
  | _ => false

namespace Sys

/-- The running checker covers the chain of every pending row. -/
def Covered (s : Sys W) : Prop :=
  ∀ r ∈ s.shared.db.event_logs, r.fcr_status = some .pending →
    ∃ c ∈ s.config.fcrChains, r.bridge_mode ∈ FcrChecker.bridgeModes c.1

/-- Every row that is there between two cycles, and pending still when the checker has
completed a later one of the same process, has had its block examined in it, if that was
finalized. -/
def Examined (lib : Externals) (s : Sys W) : Prop :=
  ∀ ls t round parts, s.running .fcr_checker = none → (uninterrupted lib W).Run s ls t →
    t.running .fcr_checker = some round →
    FcrChecker.Completed s.config round.trace parts →
    ∀ id old r n, s.row? id = some old → t.row? id = some r → r.fcr_status = some .pending →
      r.block_number = some n → r.block_hash ≠ none →
      ∃ p ∈ parts, r.bridge_mode ∈ FcrChecker.bridgeModes p.1.1 ∧
        ∀ finalized_block lookup rest, p.2 = lookup ++ rest →
          Prog.Runs (getFinalizedBlockNumber (s.config.finalityRpcsForChain p.1.1).1
            (s.config.finalityRpcsForChain p.1.1).2) lookup (.ok finalized_block) →
          n ≤ finalized_block → ∃ e ∈ p.2, e.op.looksUpBlock n = true

/-- Pending rows are under revalidation. -/
structure Revalidated (lib : Externals) (s : Sys W) : Prop where
  covered : s.Covered
  examined : s.Examined lib

end Sys

/-! ## What a completed call of `check_chain` has looked up -/

namespace FcrChecker

variable {cfg : Config} {chain : Chain} {el_rpcs : List String} {finalized_block : Int}
  {tr : Trace Calls}

theorem looksUp_of_adjudicate {block : PendingBlock}
    {result : Except (Exit BridgeValidatorError) Unit} (hel : el_rpcs ≠ [])
    (h : Prog.Runs (adjudicate chain el_rpcs finalized_block block) tr result) :
    ∃ e ∈ tr, e.op.looksUpBlock block.block_number = true := by
  cases el_rpcs with
  | nil => exact absurd rfl hel
  | cons el_rpc rest =>
      -- the lookup is the first thing it does
      obtain ⟨tr₁, verdict, tr₂, rfl, hverdict, -⟩ := Prog.runs_bind.mp h
      obtain ⟨tr₁, r, tr₃, rfl, hlookup, -⟩ := Act.runs_attempt_andThen.mp hverdict
      obtain ⟨x, tr₄, rfl, -⟩ := hlookup
      refine ⟨⟨.rpc (.ethGetBlockByNumber el_rpc (.number block.block_number)), x⟩, ?_, ?_⟩
      · exact List.mem_append_left _ (List.mem_append_left _ List.mem_cons_self)
      · exact decide_eq_true rfl

theorem looksUp_of_adjudicateAll {blocks : List PendingBlock} (hel : el_rpcs ≠ [])
    (h : Prog.Runs (adjudicateAll chain el_rpcs finalized_block blocks) tr (.ok ())) :
    ∀ block ∈ blocks, ∃ e ∈ tr, e.op.looksUpBlock block.block_number = true := by
  induction blocks generalizing tr with
  | nil =>
      intro block hblock
      cases hblock
  | cons first rest ih =>
      obtain ⟨tr₁, _, tr₂, rfl, hfirst, hrest⟩ := Act.runs_andThen_ok.mp h
      intro block hblock
      rcases List.mem_cons.mp hblock with rfl | hblock
      · obtain ⟨e, he, hlooks⟩ := looksUp_of_adjudicate hel hfirst
        exact ⟨e, List.mem_append_left _ he, hlooks⟩
      · obtain ⟨e, he, hlooks⟩ := ih hrest block hblock
        exact ⟨e, List.mem_append_right _ he, hlooks⟩

/-- It has selected the pending blocks up to the number it has found finalized, and has
looked up each of them. -/
theorem selects_of_checkChain (hel : el_rpcs ≠ [])
    (h : Prog.Runs (checkChain cfg chain el_rpcs) tr (.ok ())) :
    ∃ lookup finalized_block rest rows, tr = lookup ++ rest ∧
      Prog.Runs (getFinalizedBlockNumber (cfg.finalityRpcsForChain chain).1
        (cfg.finalityRpcsForChain chain).2) lookup (.ok finalized_block) ∧
      ⟨.db (.selectPendingBlocks (bridgeModes chain) finalized_block), .ok rows⟩ ∈ tr ∧
      ∀ row ∈ rows, ∃ e ∈ tr, e.op.looksUpBlock row.1 = true := by
  obtain ⟨lookup, finalized_block, rest, rfl, hlookup, hrest⟩ := Act.runs_andThen_ok.mp h
  obtain ⟨backlog, _, rest, rfl, -, hrest⟩ := Act.runs_andThen_ok.mp hrest
  obtain ⟨selects, pending, rest, rfl, hselects, hall⟩ := Act.runs_andThen_ok.mp hrest
  obtain ⟨select, rows, count, rfl, hselect, hcount⟩ := Act.runs_andThen_ok.mp hselects
  obtain ⟨count, _, none, rfl, -, hnone⟩ := Act.runs_andThen_ok.mp hcount
  obtain rfl := trace_of_sql hselect
  obtain ⟨-, heq⟩ := hnone
  obtain rfl := Except.ok.inj heq
  refine ⟨lookup, finalized_block, _, rows, rfl, hlookup, by simp, ?_⟩
  intro row hrow
  obtain ⟨e, he, hlooks⟩ := looksUp_of_adjudicateAll hel hall _ (List.mem_map_of_mem hrow)
  exact ⟨e, by simp [he], hlooks⟩

end FcrChecker

/-! ## What a cycle has selected -/

namespace Sys

variable {s t : Sys W} {l : Label} {ls : List Label} {id N : Int} {r' : EventLog}

/-- A pending row has been pending, or has just been inserted by an indexer. -/
theorem RowStep.of_pending (h : s.RowStep id l (some r'))
    (hpending : r'.fcr_status = some .pending) :
    (∃ r, s.row? id = some r ∧ r.SameLog r' ∧ r.fcr_status = some .pending) ∨
    (id = s.shared.db.next_id ∧ l.isRestart = false ∧ ∃ i log log_index topic_key log_json,
      r' = ((IndexerId.indexer s.config i).eventLogOf log log_index topic_key log_json).toRow
        id) := by
  generalize hafter : some r' = after at h
  cases h with
  | same _ => exact Or.inl ⟨r', hafter.symm, .refl, hpending⟩
  | @inserted i log log_index topic_key log_json hid =>
      obtain rfl := Option.some.inj hafter
      exact Or.inr ⟨hid, rfl, i, log, log_index, topic_key, log_json, rfl⟩
  | claimed hr _ | staged hr _ _ | released hr _ _ =>
      obtain rfl := Option.some.inj hafter
      exact Or.inl ⟨_, hr, ⟨rfl, rfl, rfl, rfl, rfl, rfl⟩, hpending⟩
  | deleted => cases hafter
  | checked hr _ hstatus =>
      obtain rfl := Option.some.inj hafter
      refine Or.inl ⟨_, hr, ⟨rfl, rfl, rfl, rfl, rfl, rfl⟩, ?_⟩
      -- a verdict is not `pending`
      rcases hstatus with rfl | hstatus
      · cases hpending
      · exact hstatus

/-- What these calls have selected includes the pending rows with an id below `N`. -/
def Selected (N : Int) (tr : Trace Calls) (s : Sys W) : Prop :=
  ∀ id r modes finalized_block rows n h, s.row? id = some r → id < N →
    r.fcr_status = some .pending →
    ⟨.db (.selectPendingBlocks modes finalized_block), .ok rows⟩ ∈ tr →
    r.bridge_mode ∈ modes → r.block_number = some n → n ≤ finalized_block →
    r.block_hash = some h → (n, h) ∈ rows

/-- Rows become no more pending, so what has been selected stays enough. -/
theorem Selected.step {tr : Trace Calls} (h : s.Selected N tr) (hs : s.Coherent lib)
    (hk : s.shared.db.Keyed) (hN : N ≤ s.shared.db.next_id) (hstep : s.Step lib l t) :
    t.Selected N tr := by
  intro id r' modes finalized_block rows n b hr' hid hpending hmem hmode hn hle hb
  have hrow := hstep.rowStep hs hk id
  rw [hr'] at hrow
  rcases hrow.of_pending hpending with ⟨r, hr, hsame, hpending⟩ | ⟨hnew, -⟩
  · rw [hsame.bridge_mode] at hmode
    rw [hsame.block_number] at hn
    rw [hsame.block_hash] at hb
    exact h id r modes finalized_block rows n b hr hid hpending hmem hmode hn hle hb
  · omega

/-- A SELECT that is answered now takes in every pending row there is. -/
theorem selected_answer {v : Service} {o : Op} {x : o.Ans} (h : s.Step lib (.call v ⟨o, x⟩) t) :
    s.Selected N [⟨o, x⟩] := by
  intro id r modes finalized_block rows n b hr hid hpending hmem hmode hn hle hb
  cases List.mem_singleton.mp hmem
  cases h with
  | call _ _ hans =>
      cases hans with
      | db hans =>
          rcases hans with ⟨-, skip, hexec⟩ | ⟨-, -, e, he⟩
          · cases hexec
            refine Db.mem_selectPendingBlocks.mpr ⟨r, Db.row?_mem hr, ?_, ?_, hn, hb⟩
            · simp [EventLog.isPendingOf, hmode, hpending]
            · simp [EventLog.isUpTo, hn, hle]
          · cases he

theorem Selected.append {tr tr' : Trace Calls} (h : s.Selected N tr) (h' : s.Selected N tr') :
    s.Selected N (tr ++ tr') := by
  intro id r modes finalized_block rows n b hr hid hpending hmem hmode hn hle hb
  rcases List.mem_append.mp hmem with hmem | hmem
  · exact h id r modes finalized_block rows n b hr hid hpending hmem hmode hn hle hb
  · exact h' id r modes finalized_block rows n b hr hid hpending hmem hmode hn hle hb

/-- The ids below `N` were drawn before the checker's round began. -/
structure Watching (lib : Externals) (N : Int) (s : Sys W) : Prop where
  coherent : s.Coherent lib
  keyed : s.shared.db.Keyed
  drawn : N ≤ s.shared.db.next_id
  selected : ∀ r, s.running .fcr_checker = some r → s.Selected N r.trace

theorem Watching.step (h : s.Watching lib N) (hstep : s.Step lib l t) : t.Watching lib N := by
  have hkeep : ∀ {tr : Trace Calls}, s.Selected N tr → t.Selected N tr :=
    fun hsel => hsel.step h.coherent h.keyed h.drawn hstep
  constructor
  · exact h.coherent.step hstep
  · exact hstep.keyed h.keyed
  · exact h.drawn.trans (hstep.next_id_le h.keyed)
  · intro r' hr'
    rcases hstep.round hr' with hr | ⟨-, -, hnil⟩ | ⟨r, o, x, sh, hr, rfl, -, -, htrace⟩
    · exact hkeep (h.selected r' hr)
    · rw [hnil]
      intro id r modes finalized_block rows n b _ _ _ hmem
      cases hmem
    · rw [htrace]
      exact (hkeep (h.selected r hr)).append (hkeep (selected_answer hstep))

/-! ## Coverage -/

/-- A row is inserted as pending where its chain is covered. -/
theorem covered_insert {cfg : Config} {i : IndexerId} (log : RpcLog) (log_index : Nat)
    (topic_key : B256) (log_json : Json)
    (hpending : ((i.indexer cfg).eventLogOf log log_index topic_key log_json).fcr_status =
      some .pending) :
    ∃ c ∈ cfg.fcrChains, ((i.indexer cfg).eventLogOf log log_index topic_key
      log_json).bridge_mode ∈ FcrChecker.bridgeModes c.1 := by
  have hcfg : (i.indexer cfg).config = cfg := by cases i <;> rfl
  have hfcr := EventIndexer.pending_iff.mp hpending
  rw [EventIndexer.mode, hcfg] at hfcr
  obtain ⟨el_rpcs, hmem⟩ := Config.mem_fcrChains_iff.mpr hfcr
  refine ⟨_, hmem, ?_⟩
  -- the mode and the chain are both worked out from the address
  obtain ⟨j, hj⟩ : ∃ j : IndexerId, i.modeIn cfg = j.bridgeMode := i.exists_modeIn
  have hmode : EventIndexer.checkBridgeMode (i.indexer cfg).contract_address
      (i.indexer cfg).config = j.bridgeMode := by
    rw [hcfg]
    exact hj
  show EventIndexer.checkBridgeMode _ _ ∈ FcrChecker.bridgeModes (i.indexer cfg).chain
  unfold EventIndexer.chain
  rw [hmode]
  cases j <;> decide

/-- Within a lifetime the coverage stays complete. -/
theorem Covered.step (h : s.Covered) (hs : s.Coherent lib) (hk : s.shared.db.Keyed)
    (hstep : s.Step lib l t) (hl : l.isRestart = false) : t.Covered := by
  intro r' hmem hpending
  have hrow := hstep.rowStep hs hk r'.id
  have hr' : t.row? r'.id = some r' := (hstep.keyed hk).row?_of_mem hmem
  rw [hr'] at hrow
  rw [hstep.config_eq hl]
  rcases hrow.of_pending hpending with
    ⟨r, hr, hsame, hpending⟩ | ⟨-, -, i, log, log_index, topic_key, log_json, heq⟩
  · rw [hsame.bridge_mode]
    exact h r (Db.row?_mem hr) hpending
  · rw [heq] at hpending ⊢
    exact covered_insert log log_index topic_key log_json hpending

/-- Across a start-up it stays complete exactly where every chain with pending rows
stays in fcr mode. -/
theorem covered_boot_iff {u : StartUp} {cfg : Config} (hu : u.Boots cfg) :
    (boot cfg { s.shared.db with tx := none } s.shared.world : Sys W).Covered ↔ s.KeptBy u := by
  refine forall_congr' fun r => forall_congr' fun _ => forall_congr' fun _ => ?_
  constructor
  · rintro ⟨⟨chain, el_rpcs⟩, hmem, hmode⟩
    exact ⟨chain, hmode, hu.covers_iff.mp ⟨el_rpcs, hmem⟩⟩
  · rintro ⟨chain, hmode, hkeeps⟩
    obtain ⟨el_rpcs, hmem⟩ := hu.covers_iff.mpr hkeeps
    exact ⟨_, hmem, hmode⟩

/-! ## Cycles of one process -/

/-- Where the coverage is complete, every completed cycle examines every row that is
left pending. -/
theorem Covered.examined (h : s.Covered) (hs : s.Coherent lib) (hk : s.shared.db.Keyed) :
    s.Examined lib := by
  intro ls t round parts hidle hrun hround hcomplete id old r n hold hr hpending hn hhash
  have hinv : t.Watching lib s.shared.db.next_id ∧ t.Covered ∧ t.config = s.config := by
    refine hrun.invariant (I := fun t => t.Watching lib s.shared.db.next_id ∧ t.Covered ∧
      t.config = s.config) (fun m l u hm hstep => ?_) ?_
    · obtain ⟨hwatch, hcov, hcfg⟩ := hm
      exact ⟨hwatch.step hstep.1, hcov.step hwatch.coherent hwatch.keyed hstep.1 hstep.2,
        (hstep.1.config_eq hstep.2).trans hcfg⟩
    · refine ⟨⟨hs, hk, le_rfl, fun r hr => ?_⟩, h, rfl⟩
      rw [hidle] at hr
      cases hr
  obtain ⟨hwatch, hcov, hcfg⟩ := hinv
  obtain ⟨c, hc, hmode⟩ := hcov r (Db.row?_mem hr) hpending
  rw [hcfg] at hc
  have hchains := hcomplete.chains
  rw [← hchains] at hc
  obtain ⟨p, hp, rfl⟩ := List.mem_map.mp hc
  rw [hchains] at hc
  obtain ⟨lookup, finalized_block, rest, rows, htr, hlookup, hselect, hall⟩ :=
    FcrChecker.selects_of_checkChain (Config.ne_nil_of_mem_fcrChains hc) (hcomplete.returned p hp)
  refine ⟨p, hp, hmode, fun finalized_block' lookup' rest' htr' hlookup' hle => ?_⟩
  -- one call finds one number finalized
  obtain ⟨-, heq⟩ := Prog.Runs.unique hlookup hlookup' (htr.symm.trans htr')
  obtain rfl := Except.ok.inj heq
  obtain ⟨b, hb⟩ := Option.ne_none_iff_exists'.mp hhash
  have hmem : ⟨.db (.selectPendingBlocks (FcrChecker.bridgeModes p.1.1) finalized_block),
      .ok rows⟩ ∈ round.trace := by
    rw [hcomplete.trace]
    exact List.mem_flatten.mpr ⟨_, List.mem_map_of_mem hp, hselect⟩
  have hrow : (n, b) ∈ rows :=
    hwatch.selected round hround id r _ _ rows n b hr (hk.lt_next_of_row? hold) hpending hmem
      hmode hn hle hb
  exact hall _ hrow

end Sys

section

variable {G : Sys W → StartUp → Prop} {s t : Sys W} {ls : List Label}

theorem reachable_of_lifetimes (h : (lifetimesWith lib W G).Reachable s) :
    (system lib W).Reachable s := by
  obtain ⟨s₀, ls, ⟨u, cfg, w, -, hw, rfl⟩, hrun⟩ := h
  exact ⟨_, ls, ⟨cfg, w, hw, rfl⟩, hrun.mono fun _ _ _ hstep => hstep.1⟩

/-- Between restarts no start-up has to meet a condition. -/
theorem lifetimes_of_uninterrupted (h : (uninterrupted lib W).Run s ls t) :
    (lifetimesWith lib W G).Run s ls t := by
  apply h.mono
  intro s l t hstep
  refine ⟨hstep.1, ?_⟩
  rintro cfg rfl
  cases hstep.2

end

/-- **Pending rows stay under revalidation**, over any number of lifetimes, if every
process starts with the chains of the pending rows in fcr mode. -/
theorem pending_rows_revalidated {s : Sys W} (h : (covering lib W).Reachable s) :
    s.Revalidated lib := by
  have hcovered : s.Covered := by
    refine h.invariant ?_ ?_
    · rintro s ⟨u, cfg, w, -, -, rfl⟩ r hr
      cases hr
    · intro s l t hs hcov hstep
      have hreach := reachable_of_lifetimes hs
      have hcoh := coherent_of_reachable hreach
      have hk := (owned_of_reachable hreach).keyed
      cases hl : l.isRestart with
      | false => exact hcov.step hcoh hk hstep.1 hl
      | true =>
          cases l <;> cases hl
          obtain ⟨u, hu, hkept⟩ := hstep.2 _ rfl
          cases hstep.1
          exact (Sys.covered_boot_iff hu).mpr hkept
  have hreach := reachable_of_lifetimes h
  exact ⟨hcovered, hcovered.examined (coherent_of_reachable hreach)
    (owned_of_reachable hreach).keyed⟩

/-- A checker that is free completes a cycle when the call for its one chain succeeds. -/
theorem Sys.exists_completed {s : Sys W} {sh : Shared W} {answer : Oracle W}
    (h : answer.Truthful) {c : Chain × List String} (hidle : s.idle .fcr_checker)
    (hone : s.config.fcrChains = [c])
    (hok : ((FcrChecker.checkChain s.config c.1 c.2).exec (Shared.handle answer) s.shared).2 =
      (.ok (), sh)) :
    ∃ ls t round, (uninterrupted lib W).Run s ls t ∧ t.running .fcr_checker = some round ∧
      FcrChecker.Completed s.config round.trace [(c, round.trace)] ∧ t.shared = sh := by
  have hstart : s.Step lib (.start .check) (s.begin lib .check) := by
    refine .check hidle ?_
    rw [hone]
    exact List.cons_ne_nil _ _
  have hprog : ∃ f, Job.prog lib s.config .check =
      (FcrChecker.checkChain s.config c.1 c.2).bind f := by
    simp only [Job.prog, FcrChecker.cycle, hone]
    exact ⟨_, (Prog.bind_assoc _ _ _).trans (Prog.bind_assoc _ _ _)⟩
  obtain ⟨f, hf⟩ := hprog
  -- the round is played as far as the end of its one call of `check_chain`
  have hrunning : (s.begin lib .check).running .fcr_checker =
      some ⟨.check, [], Job.prog lib s.config .check⟩ := by
    simp [begin, Job.service]
  obtain ⟨ls, t, hrun, ht, hshared⟩ := exists_run_exec h _ hrunning hf
  refine ⟨_, t, _, .cons ⟨hstart, rfl⟩ hrun, ht, ?_, ?_⟩
  · have hruns := Prog.exec_runs (Shared.handle answer) (FcrChecker.checkChain s.config c.1 c.2)
      s.shared
    rw [hok] at hruns
    refine ⟨by rw [hone]; rfl, by simp, fun p hp => ?_⟩
    obtain rfl := List.mem_singleton.mp hp
    exact hruns
  · rw [hshared]
    exact congrArg Prod.snd hok

namespace Deployment

/-- The one provider answers the preflight with `x`. -/
def startUp (x : HttpResponse) : StartUp where
  accepted := config
  responses _ := [x]
  probed := by
    intro c hc
    have hone : config.fcrChains = [(.eth, config.eth_rpc)] := rfl
    rw [hone, List.mem_singleton] at hc
    rw [hc]
    rfl

/-- The node has a safe block. -/
def safeBlock : HttpResponse := elBlock "0x64" (.repeatByte 32 0xaa)

/-- The node does not know the tag. -/
def unsupportedTag : HttpResponse :=
  .response 200 (.ok (.object [("error", .object [("message", .string "invalid block tag")])]))

/-- The first poll for Ethereum. -/
def firstPoll : Option (List Label × Sys World.any) :=
  Turn.playGuarded externals (fun _ l _ => l.isRestart = false)
    (Sys.boot (startUp safeBlock).config Db.empty ())
    [.index .ETHAmb (lookups (.repeatByte 32 0xaa))]

/-- An Ethereum row is pending after the first poll. -/
theorem exists_pending (G : Sys World.any → StartUp → Prop) {p : Sys World.any → Bool}
    (hp : (firstPoll.any fun q => p q.2) = true) :
    ∃ s : Sys World.any, (lifetimesWith externals World.any G).Reachable s ∧
      (∃ r ∈ s.shared.db.event_logs, r.fcr_status = some .pending) ∧
      (∀ r ∈ s.shared.db.event_logs, r.bridge_mode = .AMB_ETH) ∧ p s = true := by
  have hboot : (Sys.boot (startUp safeBlock).config Db.empty () : Sys World.any).Resting :=
    Sys.resting_boot
  have hrows : (firstPoll.any fun q =>
      q.2.shared.db.event_logs.any (fun r => r.fcr_status == some .pending) &&
        q.2.shared.db.event_logs.all fun r => r.bridge_mode == .AMB_ETH) = true := by
    decide +kernel
  obtain ⟨q, hq, hrows⟩ := (Option.any_eq_true _ _).mp hrows
  obtain ⟨q', hq', hp⟩ := (Option.any_eq_true _ _).mp hp
  obtain rfl := Option.some.inj (hq.symm.trans hq')
  obtain ⟨hrun, -⟩ := Turn.run_playGuarded Turn.sound_any hboot hq
  simp only [Bool.and_eq_true, List.any_eq_true, List.all_eq_true, beq_iff_eq] at hrows
  refine ⟨q.2, ⟨_, q.1, ⟨_, _, (), (startUp safeBlock).boots, trivial, rfl⟩, ?_⟩, hrows.1, hrows.2,
    hp⟩
  exact lifetimes_of_uninterrupted hrun

/-- The next process, with the same environment. -/
def restarted (s : Sys World.any) : Sys World.any :=
  Sys.boot (startUp safeBlock).config { s.shared.db with tx := none } s.shared.world

/-- No node has a block at a number. -/
def unknownBlock : Oracle World.any := fun w r =>
  match r with
  | .ethGetBlockByNumber _ (.number _) => (.response 200 (.ok (.object [("result", .null)])), w)
  | r => lookups (.repeatByte 32 0xaa) w r

/-- With these answers the checker, called for Ethereum, comes to its end, and leaves a row
with this status. -/
def checksTo (answer : Oracle World.any) (status : FcrStatus) (s : Sys World.any) : Bool :=
  let out := (FcrChecker.checkChain s.config .eth config.eth_rpc).exec (Shared.handle answer)
    s.shared
  out.2.1.isOk && out.2.2.db.event_logs.any fun r => r.fcr_status == some status

theorem exists_completed_of_checksTo {answer : Oracle World.any} {status : FcrStatus}
    {s : Sys World.any} (hidle : s.idle .fcr_checker)
    (hone : s.config.fcrChains = [(.eth, config.eth_rpc)]) (h : checksTo answer status s = true) :
    ∃ ls t round parts, (uninterrupted externals World.any).Run s ls t ∧
      t.running .fcr_checker = some round ∧
      FcrChecker.Completed s.config round.trace parts ∧
      ∃ r ∈ t.shared.db.event_logs, r.fcr_status = some status := by
  simp only [checksTo, Bool.and_eq_true, List.any_eq_true, beq_iff_eq] at h
  obtain ⟨hok, hstatus⟩ := h
  generalize hout : ((FcrChecker.checkChain s.config .eth config.eth_rpc).exec
    (Shared.handle answer) s.shared).2 = out at hok hstatus
  obtain ⟨result, sh⟩ := out
  cases result with
  | error e => cases hok
  | ok _ =>
      obtain ⟨ls, t, round, hrun, hround, hcomplete, hshared⟩ :=
        Sys.exists_completed (World.any_truthful answer) hidle hone hout
      refine ⟨ls, t, round, _, hrun, hround, hcomplete, ?_⟩
      rw [hshared]
      exact hstatus

end Deployment

open Deployment in
/-- A restart with the same environment over a pending row, and a completed cycle of the new
process, in which nobody has the block. -/
theorem pending_rows_revalidated_restarted :
    ∃ (s t : Sys World.any) (ls : List Label) (round : Running)
      (parts : List ((Chain × List String) × Trace Calls)),
      s.Revalidated externals ∧ (∃ r ∈ s.shared.db.event_logs, r.fcr_status = some .pending) ∧
      (uninterrupted externals World.any).Run s ls t ∧ t.running .fcr_checker = some round ∧
      FcrChecker.Completed s.config round.trace parts ∧
      ∃ r ∈ t.shared.db.event_logs, r.fcr_status = some .pending := by
  obtain ⟨s, hreach, hpending, hmode, hchecks⟩ := exists_pending Sys.KeptBy
    (p := fun s => checksTo unknownBlock .pending (restarted s)) (by decide +kernel)
  have hkeeps : (startUp safeBlock).keepsFcr .eth = true := by decide +kernel
  have hkept : s.KeptBy (startUp safeBlock) := by
    intro r hr _
    refine ⟨.eth, ?_, hkeeps⟩
    rw [hmode r hr]
    decide
  have hstep : (covering externals World.any).step s (.restart (startUp safeBlock).config)
      (restarted s) := by
    refine ⟨.restart, ?_⟩
    rintro cfg ⟨⟩
    exact ⟨_, (startUp safeBlock).boots, hkept⟩
  have hone : (startUp safeBlock).config.fcrChains = [(.eth, config.eth_rpc)] := by
    decide +kernel
  obtain ⟨ls, t, round, parts, hrun, hround, hcomplete, hleft⟩ :=
    exists_completed_of_checksTo (s := restarted s) ⟨rfl, rfl⟩ hone hchecks
  exact ⟨restarted s, t, ls, round, parts, pending_rows_revalidated (hreach.step hstep), hpending,
    hrun, hround, hcomplete, hleft⟩

open Deployment in
/-- The same environment again, but by now the provider turns the tag down: no chain is
left in fcr mode, and nobody examines the row that is pending. -/
theorem pending_rows_left_behind : ¬ ∀ (lib : Externals) (W : World) (s : Sys W),
    (lifetimes lib W).Reachable s → s.Revalidated lib := by
  intro hclaim
  obtain ⟨s, hreach, ⟨r, hr, hpending⟩, -⟩ := exists_pending (fun _ _ => True) (p := fun _ => true)
    (by decide +kernel)
  have hstep : (lifetimes externals World.any).step s (.restart (startUp unsupportedTag).config)
      (Sys.boot (startUp unsupportedTag).config { s.shared.db with tx := none }
        s.shared.world) := by
    refine ⟨.restart, ?_⟩
    rintro cfg ⟨⟩
    exact ⟨_, (startUp unsupportedTag).boots, trivial⟩
  obtain ⟨c, hc, -⟩ := (hclaim _ _ _ (hreach.step hstep)).covered r hr hpending
  have hnone : (startUp unsupportedTag).config.fcrChains = [] := by decide +kernel
  have hc : c ∈ (startUp unsupportedTag).config.fcrChains := hc
  rw [hnone] at hc
  cases hc

end BridgeValidator
