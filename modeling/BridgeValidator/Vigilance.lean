import BridgeValidator.Resolution
import BridgeValidator.Supply

/-!
# No row stays pending

A cycle of the checker decides what its lookups let it decide. Where one endpoint of each
chain is up, the numbers that are reported finalized have come to a block, the statements are
executed and the checker goes on, a cycle comes to its end with success, and so each pending
row up to that block gets its verdict, however the rows are worked on meanwhile.
-/

namespace BridgeValidator

open Interaction

variable {W : World} {lib : Externals}

namespace FcrChecker

/-! ## A call of check_chain -/

section

variable {number : Int} {up el_rpcs : List String} {chain : Chain} {finalized_block : Int}

theorem yields_insertFalsePositives {block : PendingBlock} {canonical_block_hash : Option String}
    (affected : List (Int × Option String × Option Int)) :
    Yields number up
      (insertFalsePositives chain block canonical_block_hash finalized_block affected)
      fun _ => True := by
  induction affected with
  | nil => exact yields_pure trivial
  | cons row rest ih => exact (yields_sql _).bind fun _ _ => ih

theorem yields_recordFalsePositive {block : PendingBlock} {canonical_block_hash : Option String} :
    Yields number up (recordFalsePositive chain block canonical_block_hash finalized_block)
      fun _ => True := by
  refine (yields_sql _).bind fun _ _ => Yields.attempt (Q := fun _ => True) ?_ fun _ _ => ?_
  · refine (yields_sql _).bind fun affected _ => ?_
    refine (yields_insertFalsePositives affected).bind fun _ _ => ?_
    exact (yields_sql _).bind fun _ _ => yields_sql _
  · exact yields_pure trivial

theorem yields_adjudicateAll (h : ∃ el_rpc ∈ el_rpcs, el_rpc ∈ up) (blocks : List PendingBlock) :
    Yields number up (adjudicateAll chain el_rpcs finalized_block blocks) fun _ => True := by
  induction blocks with
  | nil => exact yields_pure trivial
  | cons block rest ih =>
      refine Yields.bind (Q := fun _ => True) ?_ fun _ _ => ih
      refine Yields.bind (Q := fun _ => True) ?_ fun verdict _ => ?_
      · refine (yields_getCanonicalBlockHash block.block_number h).attempt fun hash hhash => ?_
        obtain ⟨canonical, rfl⟩ := Option.ne_none_iff_exists'.mp hhash
        exact Act.follows_ite.mpr ⟨fun _ => yields_pure trivial, fun _ => yields_pure trivial⟩
      · cases verdict with
        | Confirmed => exact (yields_sql _).bind fun _ _ => yields_pure trivial
        | Reverted canonical => exact yields_recordFalsePositive
        | Unavailable => exact yields_pure trivial

theorem yields_checkChain {cfg : Config} (h : ∃ el_rpc ∈ el_rpcs, el_rpc ∈ up)
    (hfinality : ∃ el_rpc ∈ (cfg.finalityRpcsForChain chain).2, el_rpc ∈ up) :
    Yields number up (checkChain cfg chain el_rpcs) fun _ => True := by
  refine (yields_getFinalizedBlockNumber _ hfinality).bind fun f _ => ?_
  refine Yields.bind (Q := fun _ => True) ?_ fun _ _ => ?_
  · exact (yields_sql _).bind fun _ _ => yields_pure trivial
  · refine Yields.bind (Q := fun _ => True) ?_ fun blocks _ => yields_adjudicateAll h blocks
    exact (yields_sql _).bind fun _ _ => (yields_sql _).bind fun _ _ => yields_pure trivial

/-- A lookup with such answers finds a hash. -/
theorem not_unavailable {n : Int} {tr : Trace Calls} (h : ∃ el_rpc ∈ el_rpcs, el_rpc ∈ up)
    (htr : ∀ e ∈ tr, Supplies number up e.op e.ans) : ¬Unavailable el_rpcs n tr := by
  rintro ⟨lookup, result, hin, hrun, hresult⟩
  obtain ⟨hash, rfl, hhash⟩ := (yields_getCanonicalBlockHash n h).of_runs hrun fun e he =>
    htr e (hin.subset he)
  obtain ⟨canonical, rfl⟩ := Option.ne_none_iff_exists'.mp hhash
  exact hresult canonical rfl

end

/-! ## A cycle -/

section

variable {number : Int} {up : List String} {cfg : Config} {tr : Trace Calls}
  {result : Except (Exit BridgeValidatorError) Unit}

/-- The array a chain is checked with is the one its finality is looked up at. -/
theorem finalityRpcs_of_mem_fcrChains {c : Chain × List String} (h : c ∈ cfg.fcrChains) :
    (cfg.finalityRpcsForChain c.1).2 = c.2 := by
  simp only [Config.fcrChains, List.mem_append] at h
  rcases h with h | h <;> split at h
  · rw [List.mem_singleton.mp h]
    rfl
  · cases h
  · rw [List.mem_singleton.mp h]
    rfl
  · cases h

/-- An endpoint of each chain in fcr mode is up. -/
def Reaches (cfg : Config) (up : List String) : Prop :=
  ∀ c ∈ cfg.fcrChains, ∃ el_rpc ∈ c.2, el_rpc ∈ up

theorem exists_parts (h : Reaches cfg up) (htr : ∀ e ∈ tr, Supplies number up e.op e.ans)
    {chains : List (Chain × List String)} (hchains : ∀ c ∈ chains, c ∈ cfg.fcrChains)
    (hrun : Prog.Runs (checkChains cfg chains) tr result) :
    ∃ parts : List ((Chain × List String) × Trace Calls), parts.map Prod.fst = chains ∧
      tr = (parts.map Prod.snd).flatten ∧
      ∀ p ∈ parts, Prog.Runs (checkChain cfg p.1.1 p.1.2) p.2 (.ok ()) := by
  induction chains generalizing tr with
  | nil =>
      obtain ⟨rfl, -⟩ := hrun
      exact ⟨[], rfl, rfl, List.forall_mem_nil _⟩
  | cons c rest ih =>
      obtain ⟨tr₁, r, tr₂, rfl, hcheck, hrest⟩ := Act.runs_attempt_andThen.mp hrun
      have hmem := hchains c List.mem_cons_self
      have hup := h c hmem
      have hfinality : ∃ el_rpc ∈ (cfg.finalityRpcsForChain c.1).2, el_rpc ∈ up := by
        rw [finalityRpcs_of_mem_fcrChains hmem]
        exact hup
      obtain ⟨_, rfl, -⟩ := (yields_checkChain hup hfinality).of_runs hcheck fun e he =>
        htr e (List.mem_append_left _ he)
      obtain ⟨parts, rfl, rfl, hparts⟩ := ih
        (fun e he => htr e (List.mem_append_right _ he))
        (fun c hc => hchains c (List.mem_cons_of_mem _ hc)) hrest
      exact ⟨(c, tr₁) :: parts, rfl, rfl, List.forall_mem_cons.mpr ⟨hcheck, hparts⟩⟩

/-- A cycle with such answers is completed. -/
theorem completed_of_supplied (h : Reaches cfg up) (htr : ∀ e ∈ tr, Supplies number up e.op e.ans)
    (hrun : Prog.Runs (cycle cfg) tr result) : ∃ parts, Completed cfg tr parts := by
  obtain ⟨parts, hchains, htrace, hreturned⟩ := exists_parts h htr (fun _ hc => hc) hrun
  exact ⟨parts, hchains, htrace, hreturned⟩

end

end FcrChecker

open FcrChecker

namespace Sys

variable {s t : Sys W} {l : Label} {id : Int} {number : Int} {up : List String}

/-- After a completed round with such answers no row it was about is pending. -/
theorem Resolving.not_pending {N b : Int} (hresolving : t.Resolving lib N)
    (hwatch : t.Watching lib N) {cfg : Config} {round : Running}
    {parts : List ((Chain × List String) × Trace Calls)}
    (hround : t.running .fcr_checker = some round) (hcomplete : Completed cfg round.trace parts)
    (hup : Reaches cfg up) (hsupplied : ∀ e ∈ round.trace, Supplies number up e.op e.ans)
    {r : EventLog} (hr : t.row? id = some r) (hid : id < N)
    (hmode : ∃ c ∈ cfg.fcrChains, r.bridge_mode ∈ bridgeModes c.1)
    (hb : r.block_number = some b) (hle : b ≤ number) (hhash : r.block_hash ≠ none) :
    r.fcr_status ≠ some .pending := by
  intro hpending
  obtain ⟨c, hc, hcmode⟩ := hmode
  rw [← hcomplete.chains] at hc
  obtain ⟨p, hp, rfl⟩ := List.mem_map.mp hc
  have hpart : ∀ e ∈ p.2, Supplies number up e.op e.ans := by
    intro e he
    apply hsupplied
    rw [hcomplete.trace]
    exact List.mem_flatten.mpr ⟨p.2, List.mem_map_of_mem hp, he⟩
  have hmem : p.1 ∈ cfg.fcrChains := by
    rw [← hcomplete.chains]
    exact List.mem_map_of_mem hp
  have hfinality : ∃ el_rpc ∈ (cfg.finalityRpcsForChain p.1.1).2, el_rpc ∈ up := by
    rw [finalityRpcs_of_mem_fcrChains hmem]
    exact hup p.1 hmem
  obtain ⟨lookup, f, rest, -, htr, hlookup, -, -⟩ :=
    settles_of_checkChain (hcomplete.returned p hp)
  obtain ⟨f', heq, hf⟩ := (yields_getFinalizedBlockNumber _ hfinality).of_runs hlookup
    fun e he => hpart e (htr ▸ List.mem_append_left _ he)
  obtain rfl := Except.ok.inj heq
  exact not_unavailable (hup p.1 hmem) hpart
    (hresolving.unavailable hwatch hround hcomplete hr hid hpending hb hhash hp hcmode htr hlookup
      (hle.trans hf))

/-- A verdict is not taken back. -/
theorem Step.status_kept (hs : s.Coherent lib) (hk : s.shared.db.Keyed) (h : s.Step lib l t)
    (hid : id < s.shared.db.next_id) {r' : EventLog} (hr' : t.row? id = some r') :
    ∃ r, s.row? id = some r ∧ r.SameLog r' ∧
      (r'.fcr_status = some .pending → r.fcr_status = some .pending) ∧
      (r'.fcr_status = none → r.fcr_status = none) := by
  obtain ⟨r, hr, hsame⟩ := h.sameLog hk hid hr'
  refine ⟨r, hr, hsame, fun hpending => ?_, fun hnone => ?_⟩
  · have hrow := h.rowStep hs hk id
    rw [hr'] at hrow
    rcases hrow.of_pending hpending with ⟨r₀, hr₀, -, hold⟩ | ⟨hnew, -⟩
    · obtain rfl := Option.some.inj (hr.symm.trans hr₀)
      exact hold
    · exact absurd hnew hid.ne
  · have hrow := h.rowStep hs hk id
    generalize t.row? id = after at hrow hr'
    cases hrow with
    | same _ =>
        obtain rfl := Option.some.inj (hr.symm.trans hr')
        exact hnone
    | inserted hnew => exact absurd hnew hid.ne
    | claimed hr₀ | staged hr₀ | released hr₀ =>
        obtain rfl := Option.some.inj (hr.symm.trans hr₀)
        obtain rfl := Option.some.inj hr'
        exact hnone
    | deleted => cases hr'
    | checked hr₀ =>
        obtain rfl := Option.some.inj hr'
        cases hnone

end Sys

/-! ## An endless run -/

/-- A row waits for its verdict. -/
def Sys.Pending (s : Sys W) : Prop := ∃ r ∈ s.shared.db.event_logs, r.fcr_status = some .pending

/-- From `n` on the checker works on while a row is pending, and it is supplied. -/
structure Vigilant (p : (system lib W).Path) (n : Nat) (number : Int) (up : List String) :
    Prop extends Persists p n .fcr_checker Sys.Pending where
  supplied : ∀ k, n ≤ k → ∀ o x, p.label k = .call .fcr_checker ⟨o, x⟩ → Supplies number up o x

namespace Vigilant

variable {p : (system lib W).Path} {n : Nat} {number : Int} {up : List String}

/-- What a round that began after `n` has been answered. -/
theorem trace_supplied (h : Vigilant p n number up) {j k : Nat} (hj : n ≤ j) (hjk : j ≤ k)
    (hidle : (p.state j).running .fcr_checker = none) {r : Running}
    (hr : (p.state k).running .fcr_checker = some r) :
    ∀ e ∈ r.trace, Supplies number up e.op e.ans := by
  intro e he
  obtain ⟨tr₁, tr₂, htr⟩ := List.append_of_mem he
  obtain ⟨i, hi, -, hl, -⟩ := exists_call_at hjk hidle hr htr
  exact h.supplied i (hj.trans hi) e.op e.ans hl

/-- The round that is finished is a whole cycle. -/
theorem completed_of_finish (h : Vigilant p n number up) (h₀ : (system lib W).Reachable (p.state 0))
    (hup : Reaches (p.state n).config up) {j m : Nat} (hj : n ≤ j) (hjm : j ≤ m)
    (hidle : (p.state j).running .fcr_checker = none) (hm : p.label m = .finish .fcr_checker) :
    ∃ round parts, (p.state m).running .fcr_checker = some round ∧
      Completed (p.state n).config round.trace parts := by
  have hstep := p.step m
  rw [hm] at hstep
  generalize p.state (m + 1) = t at hstep
  cases hstep with
  | @finish _ round result hr hrest =>
      obtain ⟨hservice, hsteps⟩ := coherent_of_reachable ((p.run m).reachable h₀) _ round hr
      rw [hrest, h.config_eq (hj.trans hjm)] at hsteps
      cases hjob : round.job with
      | check =>
          rw [hjob] at hsteps
          obtain ⟨tr₁, _, tr₂, htrace, hcycle, hnone⟩ := Act.runs_andThen_ok.mp hsteps.runs
          obtain ⟨rfl, -⟩ := hnone
          rw [List.append_nil] at htrace
          rw [← htrace] at hcycle
          obtain ⟨parts, hparts⟩ := completed_of_supplied hup
            (h.trace_supplied hj hjm hidle hr) hcycle
          exact ⟨round, parts, hr, hparts⟩
      | _ =>
          rw [hjob] at hservice
          cases hservice

/-- Between two cycles another one begins, and is completed, while a row is pending. -/
theorem exists_completed (h : Vigilant p n number up) (h₀ : (system lib W).Reachable (p.state 0))
    (hup : Reaches (p.state n).config up)
    (hpending : ∀ k, n ≤ k → (p.state k).Pending) :
    ∃ j m round parts, n ≤ j ∧ j ≤ m ∧ (p.state j).running .fcr_checker = none ∧
      (p.state m).running .fcr_checker = some round ∧
      Completed (p.state n).config round.trace parts ∧
      ∀ e ∈ round.trace, Supplies number up e.op e.ans := by
  have hidle : ∃ i, n ≤ i ∧ (p.state i).running .fcr_checker = none := by
    by_cases hbusy : (p.state n).running .fcr_checker = none
    · exact ⟨n, le_rfl, hbusy⟩
    · obtain ⟨m, hm, -, hnone⟩ := h.exists_finish le_rfl hbusy
      exact ⟨m + 1, Nat.le_succ_of_le hm, hnone⟩
  obtain ⟨i, hi, hnone⟩ := hidle
  obtain ⟨j, m, hj, hjm, hbefore, hfinish, -⟩ := h.exists_round hi hnone (hpending i hi)
  obtain ⟨round, parts, hrunning, hparts⟩ :=
    h.completed_of_finish h₀ hup (hi.trans hj) hjm hbefore hfinish
  exact ⟨j, m, round, parts, hi.trans hj, hjm, hbefore, hrunning, hparts,
    h.trace_supplied (hi.trans hj) hjm hbefore hrunning⟩

end Vigilant

section

variable {p : (system lib W).Path} {n : Nat} {id : Int} {r : EventLog}

/-- The row of an id stays the log it is, and keeps a status if it has one. -/
theorem status_kept_along (h₀ : (system lib W).Reachable (p.state 0))
    (hr : (p.state n).row? id = some r) (hstatus : r.fcr_status ≠ none) {k : Nat} (hk : n ≤ k) :
    id < (p.state k).shared.db.next_id ∧
      ∀ r', (p.state k).row? id = some r' → r.SameLog r' ∧ r'.fcr_status ≠ none := by
  have hkeyed : ∀ k, (p.state k).shared.db.Keyed :=
    fun k => (owned_of_reachable (path_reachable h₀ k)).keyed
  induction hk with
  | refl =>
      refine ⟨(hkeyed n).lt_next_of_row? hr, fun r' hr' => ?_⟩
      obtain rfl := Option.some.inj (hr.symm.trans hr')
      exact ⟨.refl, hstatus⟩
  | @step k hk ih =>
      obtain ⟨hid, hkept⟩ := ih
      refine ⟨hid.trans_le ((p.step k).next_id_le (hkeyed k)), fun r' hr' => ?_⟩
      obtain ⟨r₀, hr₀, hsame, -, hnone⟩ := (p.step k).status_kept
        (coherent_of_reachable (path_reachable h₀ k)) (hkeyed k) hid hr'
      obtain ⟨hsame₀, hstatus₀⟩ := hkept r₀ hr₀
      exact ⟨hsame₀.trans hsame, fun hlost => hstatus₀ (hnone hlost)⟩

/-- What is not pending does not become so. -/
theorem decided_along (h₀ : (system lib W).Reachable (p.state 0))
    (hr : (p.state n).row? id = some r) (hstatus : r.fcr_status ≠ none) {m k : Nat} (hm : n ≤ m)
    (hk : m ≤ k) (hdecided : ∀ r', (p.state m).row? id = some r' → r'.fcr_status ≠ some .pending) :
    ∀ r', (p.state k).row? id = some r' → r'.fcr_status ≠ some .pending := by
  induction hk with
  | refl => exact hdecided
  | @step k hk ih =>
      intro r' hr' hpending
      have hreach := path_reachable h₀ k
      obtain ⟨r₀, hr₀, -, hold, -⟩ := (p.step k).status_kept (coherent_of_reachable hreach)
        (owned_of_reachable hreach).keyed (status_kept_along h₀ hr hstatus (hm.trans hk)).1 hr'
      exact ih r₀ hr₀ (hold hpending)

end

/-- **No row stays pending.** Where the checker goes on and is served, a pending row at a block
up to `number`, of a bridge whose chain is checked, has its verdict some time, if it is there
still: it is confirmed or reverted, and it is so from then on. -/
theorem pending_row_is_decided (p : (system lib W).Path)
    (h₀ : (system lib W).Reachable (p.state 0)) {n : Nat} {number : Int} {up : List String}
    (hv : Vigilant p n number up) (hup : Reaches (p.state n).config up) {id : Int} {r : EventLog}
    (hr : (p.state n).row? id = some r) (hpending : r.fcr_status = some .pending)
    (hmode : ∃ c ∈ (p.state n).config.fcrChains, r.bridge_mode ∈ bridgeModes c.1) {b : Int}
    (hb : r.block_number = some b) (hle : b ≤ number) (hhash : r.block_hash ≠ none) :
    ∃ m, ∀ k, m ≤ k → ∀ r', (p.state k).row? id = some r' →
      r'.fcr_status = some .confirmed ∨ r'.fcr_status = some .reverted := by
  have hstatus : r.fcr_status ≠ none := by
    rw [hpending]
    exact Option.some_ne_none _
  have hdecided : ∃ m, n ≤ m ∧
      ∀ r', (p.state m).row? id = some r' → r'.fcr_status ≠ some .pending := by
    by_contra hnever
    push Not at hnever
    have hthere : ∀ k, n ≤ k → (p.state k).Pending := by
      intro k hk
      obtain ⟨r', hr', hp⟩ := hnever k hk
      exact ⟨r', Db.row?_mem hr', hp⟩
    obtain ⟨j, m, round, parts, hj, hjm, hidle, hround, hcomplete, hsupplied⟩ :=
      hv.exists_completed h₀ hup hthere
    have hinv : ∀ k, j ≤ k → (p.state k).Resolving lib (p.state j).shared.db.next_id ∧
        (p.state k).Watching lib (p.state j).shared.db.next_id := by
      intro k hk
      induction hk with
      | refl => exact Sys.resolving_of_idle (path_reachable h₀ j) hidle
      | step hk ih => exact ⟨ih.1.step (p.step _), ih.2.step (p.step _)⟩
    obtain ⟨hresolving, hwatch⟩ := hinv m hjm
    obtain ⟨r', hr', hp⟩ := hnever m (hj.trans hjm)
    have hsame := ((status_kept_along h₀ hr hstatus (hj.trans hjm)).2 r' hr').1
    refine hresolving.not_pending hwatch hround hcomplete hup hsupplied hr'
      (status_kept_along h₀ hr hstatus hj).1 ?_ ?_ hle ?_ hp
    · rw [hsame.bridge_mode]
      exact hmode
    · rw [hsame.block_number]
      exact hb
    · rw [hsame.block_hash]
      exact hhash
  obtain ⟨m, hm, hdecided⟩ := hdecided
  refine ⟨m, fun k hk r' hr' => ?_⟩
  have hnot := decided_along h₀ hr hstatus hm hk hdecided r' hr'
  have hsome := ((status_kept_along h₀ hr hstatus (hm.trans hk)).2 r' hr').2
  cases hcase : r'.fcr_status with
  | none => exact absurd hcase hsome
  | some status =>
      cases status with
      | pending => exact absurd hcase hnot
      | confirmed => exact Or.inl rfl
      | reverted => exact Or.inr rfl

/-! ## A row that becomes confirmed -/

/-- One cycle, in a process that does nothing more about its rows. -/
theorem vigilant_of_cycle {p : (system lib W).Path} {m : Nat} {number : Int} {up : List String}
    (hlive : ∀ k, (p.label k).ends = false) (hstart : p.label 0 = .start .check)
    (hfinish : p.label m = .finish .fcr_checker)
    (hbetween : ∀ k, k < m → p.label k ≠ .finish .fcr_checker)
    (hrest : ∀ k, m < k → (p.state k).running .fcr_checker = none ∧
      ∀ r ∈ (p.state k).shared.db.event_logs, r.fcr_status ≠ some .pending)
    (hsupplied : ∀ k o x, p.label k = .call .fcr_checker ⟨o, x⟩ → Supplies number up o x) :
    Vigilant p 0 number up := by
  have hbusy : ∀ k, k < m → (p.state (k + 1)).running .fcr_checker ≠ none := by
    intro k hk
    induction k with
    | zero =>
        have hstep := p.step 0
        rw [hstart] at hstep
        generalize p.state (0 + 1) = t at hstep
        cases hstep with
        | check => simp [Sys.begin, Job.service]
    | succ k ih =>
        rcases (p.step (k + 1)).running_of (ih (Nat.lt_of_succ_lt hk)) with hfin | hends | hstays
        · exact absurd hfin (hbetween _ hk)
        · cases (hlive _).symm.trans hends
        · exact hstays
  refine ⟨⟨fun k _ => hlive k, fun k _ hk => ⟨m, ?_, ?_⟩, fun k _ hidle hpending => ?_⟩,
    fun k _ => hsupplied k⟩
  · by_contra hlt
    exact hk (hrest k (Nat.lt_of_not_le hlt)).1
  · rw [hfinish]
    exact beq_self_eq_true _
  · cases k with
    | zero => exact ⟨0, .check, le_rfl, rfl, hstart⟩
    | succ k =>
        rcases Nat.lt_or_ge k m with hk | hk
        · exact absurd hidle (hbusy k hk)
        · obtain ⟨r, hr, hp⟩ := hpending
          exact absurd hp ((hrest _ (Nat.lt_succ_of_le hk)).2 r hr)

namespace Deployment

def startsCheck : Label → Bool
  | .start .check => true
  | _ => false

def finishesCheck : Label → Bool
  | .finish .fcr_checker => true
  | _ => false

theorem startsCheck_iff {l : Label} : startsCheck l = true ↔ l = .start .check := by
  refine ⟨fun h => ?_, fun h => h ▸ rfl⟩
  unfold startsCheck at h
  split at h
  · rfl
  · cases h

theorem finishesCheck_iff {l : Label} : finishesCheck l = true ↔ l = .finish .fcr_checker := by
  refine ⟨fun h => ?_, fun h => h ▸ rfl⟩
  unfold finishesCheck at h
  split at h
  · rfl
  · cases h

/-- The process lives, and the checker gets its answers from the endpoint that is up. -/
def keepsSupplied : Label → Bool
  | .call .fcr_checker ⟨o, x⟩ => decide (Supplies 100 ["http://eth-el"] o x)
  | l => !l.ends

/-- Over a pending row the checker's next cycle is served, and then nothing happens any more. -/
theorem exists_vigilant :
    ∃ (p : (system externals World.any).Path) (r : EventLog) (m : Nat),
      (system externals World.any).Reachable (p.state 0) ∧
      Vigilant p 0 100 ["http://eth-el"] ∧
      (p.state 0).config.fcrChains = [(.eth, ["http://eth-el"])] ∧
      (p.state 0).row? 1 = some r ∧ r.fcr_status = some .pending ∧ r.bridge_mode = .AMB_ETH ∧
      r.block_number = some 100 ∧ r.block_hash ≠ none ∧
      ∀ k, m ≤ k → (p.state k).row? 1 ≠ none := by
  obtain ⟨ls₁, s, ls, t, hrun₁, hrun, hp⟩ := Turn.exists_of_playAll₂
    [.index .ETHAmb (lookups (.repeatByte 32 0xaa))]
    [.check (lookups (.repeatByte 32 0xaa))]
    (fun p q => p.2.config.fcrChains == [(.eth, ["http://eth-el"])] &&
      (p.2.row? 1).any (fun r => (r.fcr_status == some .pending &&
        r.bridge_mode == .AMB_ETH) && (r.block_number == some 100 && r.block_hash.isSome)) &&
      (q.1.head?.any startsCheck && q.1.getLast?.any finishesCheck &&
        (q.1.dropLast.all (fun l => !finishesCheck l) && q.1.all keepsSupplied)) &&
      ((q.2.row? 1).isSome && (q.2.running .fcr_checker).isNone &&
        q.2.shared.db.event_logs.all fun r => r.fcr_status != some .pending))
    Turn.sound_any Turn.sound_any Sys.resting_boot
    (show (Turn.playAll externals (Sys.boot config Db.empty ()) _).any _ = true by decide +kernel)
  simp only [Bool.and_eq_true, Option.any_eq_true, beq_iff_eq, List.all_eq_true,
    Bool.not_eq_eq_eq_not, Bool.not_true, bne_iff_ne] at hp
  obtain ⟨⟨⟨hchains, r, hr, ⟨hpending, hmode⟩, hnumber, hhash⟩, ⟨⟨l, hhead, hstart⟩, l', hlast,
    hfinish⟩, hbetween, hsupplied⟩, ⟨hthere, hidle⟩, hnone⟩ := hp
  obtain ⟨p, hfirst, hticks, hlabels⟩ := hrun.path (.tick trivial)
  have hlabel : ∀ k, keepsSupplied (p.label k) = true := by
    intro k
    rcases Nat.lt_or_ge k ls.length with hk | hk
    · rw [hlabels k hk]
      exact hsupplied _ (List.getElem_mem hk)
    · rw [(hticks k hk).2]
      rfl
  have hpos : 0 < ls.length := by
    cases ls with
    | nil => cases hhead
    | cons => exact Nat.succ_pos _
  have hafter : ∀ k, ls.length - 1 < k → p.state k = t := fun k hk => (hticks k (by omega)).1
  have hlast' : p.label (ls.length - 1) = .finish .fcr_checker := by
    rw [List.getLast?_eq_getElem?, List.getElem?_eq_getElem (by omega)] at hlast
    rw [hlabels _ (by omega), Option.some.inj hlast]
    exact finishesCheck_iff.mp hfinish
  refine ⟨p, r, ls.length, ?_, vigilant_of_cycle ?_ ?_ hlast' ?_ ?_ ?_, ?_⟩
  · rw [hfirst]
    exact ⟨_, ls₁, ⟨config, (), trivial, rfl⟩, hrun₁⟩
  · intro k
    have hkeeps := hlabel k
    cases hl : p.label k with
    | panic v => rw [hl] at hkeeps; cases hkeeps
    | restart cfg => rw [hl] at hkeeps; cases hkeeps
    | _ => rfl
  · rw [List.head?_eq_getElem?, List.getElem?_eq_getElem hpos] at hhead
    rw [hlabels 0 hpos, Option.some.inj hhead]
    exact startsCheck_iff.mp hstart
  · intro k hk hfin
    have hin : k < ls.length := by omega
    have hmem : ls[k] ∈ ls.dropLast := by
      rw [← List.getElem_dropLast (by simpa using hk)]
      exact List.getElem_mem _
    rw [hlabels k hin] at hfin
    cases (hbetween _ hmem).symm.trans (finishesCheck_iff.mpr hfin)
  · intro k hk
    rw [hafter k hk]
    exact ⟨Option.isNone_iff_eq_none.mp hidle, hnone⟩
  · intro k o x hl
    have hkeeps := hlabel k
    rw [hl] at hkeeps
    exact of_decide_eq_true hkeeps
  · rw [hfirst]
    refine ⟨hchains, hr, hpending, hmode, hnumber, Option.isSome_iff_ne_none.mp hhash, ?_⟩
    intro k hk
    rw [(hticks k hk).1]
    exact Option.isSome_iff_ne_none.mp hthere

end Deployment

/-- The row is confirmed. -/
theorem pending_row_is_decided_supplied :
    ∃ (p : (system Deployment.externals World.any).Path) (m : Nat), ∀ k, m ≤ k →
      ∃ r, (p.state k).row? 1 = some r ∧
        (r.fcr_status = some .confirmed ∨ r.fcr_status = some .reverted) := by
  obtain ⟨p, r, n, hreach, hvigilant, hchains, hr, hpending, hmode, hnumber, hhash, hthere⟩ :=
    Deployment.exists_vigilant
  have hup : Reaches (p.state 0).config ["http://eth-el"] := by
    intro c hc
    rw [hchains] at hc
    rw [List.mem_singleton.mp hc]
    exact ⟨_, List.mem_singleton_self _, List.mem_singleton_self _⟩
  have hchecked : ∃ c ∈ (p.state 0).config.fcrChains, r.bridge_mode ∈ bridgeModes c.1 := by
    rw [hchains, hmode]
    exact ⟨_, List.mem_singleton_self _, by decide⟩
  obtain ⟨m, hm⟩ := pending_row_is_decided p hreach hvigilant hup hr hpending hchecked hnumber
    le_rfl hhash
  refine ⟨p, max m n, fun k hk => ?_⟩
  obtain ⟨r', hr'⟩ := Option.ne_none_iff_exists'.mp (hthere k ((le_max_right m n).trans hk))
  exact ⟨r', hr', hm k ((le_max_left m n).trans hk) r' hr'⟩

end BridgeValidator
