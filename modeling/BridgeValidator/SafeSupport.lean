import BridgeValidator.Lifetimes

/-!
# Preflight and resolver

Both walk the same providers and see the same outcomes. The resolver stops at the
first block and remembers whether a provider had none yet; the preflight asks every
provider and keeps two flags. They agree: the preflight finds `safe` supported
exactly where the resolver has something to return. So a chain leaves fcr mode when
somebody has refused the tag and nobody served it, and for no other reason.
-/

namespace BridgeValidator

open Interaction

/-! ## The resolver -/

def SafeProbe.block? : SafeProbe → Option Int
  | .Block n => some n
  | _ => none

/-- What the outcomes of an array resolve to. -/
inductive SafeResolution (outcomes : List SafeProbe) :
    Except (Exit BridgeValidatorError) (Option Int) → Prop
  | block {n} (h : outcomes.findSome? SafeProbe.block? = some n) :
      SafeResolution outcomes (.ok (some n))
  | empty (h : outcomes.findSome? SafeProbe.block? = none) (hempty : .Empty ∈ outcomes) :
      SafeResolution outcomes (.ok none)
  | failed (h : outcomes.findSome? SafeProbe.block? = none) (hempty : .Empty ∉ outcomes) :
      SafeResolution outcomes (.error (.error .AllRpcsFailedForSafeBlock))

/-- `get_safe_block_number` returns `result` when the providers respond so; it may do so
before it has asked all of them. -/
def ResolvesTo (el_rpcs : List String) (responses : List HttpResponse)
    (result : Except (Exit BridgeValidatorError) (Option Int)) : Prop :=
  ∃ tr, tr <+: probesOf el_rpcs responses ∧ (getSafeBlockNumber el_rpcs).Runs tr result

section

variable {el_rpcs : List String} {responses : List HttpResponse} {outcomes : List SafeProbe}
  {result result' : Except (Exit BridgeValidatorError) (Option Int)}

theorem SafeResolution.unique (h : SafeResolution outcomes result)
    (h' : SafeResolution outcomes result') : result = result' := by
  cases h with
  | block hb =>
      cases h' with
      | block hb' => rw [Option.some.inj (hb.symm.trans hb')]
      | empty hb' => cases hb.symm.trans hb'
      | failed hb' => cases hb.symm.trans hb'
  | empty hb he =>
      cases h' with
      | block hb' => cases hb.symm.trans hb'
      | empty => rfl
      | failed _ he' => exact absurd he he'
  | failed hb he =>
      cases h' with
      | block hb' => cases hb.symm.trans hb'
      | empty _ he' => exact absurd he' he
      | failed => rfl

/-- The walk, after providers without a block: the flag says whether one of them had
none yet. -/
theorem exists_runs_safeFromElRpcs {seen : List SafeProbe}
    (hseen : seen.findSome? SafeProbe.block? = none)
    (hlen : responses.length = el_rpcs.length) :
    ∃ tr result, tr <+: probesOf el_rpcs responses ∧
      (safeFromElRpcs (decide (.Empty ∈ seen)) el_rpcs).Runs tr result ∧
      SafeResolution (seen ++ responses.map readSafeProbe) result := by
  induction el_rpcs generalizing seen responses with
  | nil =>
      obtain rfl := List.length_eq_zero_iff.mp hlen
      rw [List.map_nil, List.append_nil]
      by_cases hempty : SafeProbe.Empty ∈ seen
      · refine ⟨[], .ok none, List.prefix_refl _, ?_, .empty hseen hempty⟩
        simp only [safeFromElRpcs, hempty, decide_true, if_true]
        exact ⟨rfl, rfl⟩
      · refine ⟨[], _, List.prefix_refl _, ?_, .failed hseen hempty⟩
        simp only [safeFromElRpcs, hempty, decide_false, Bool.false_eq_true, if_false]
        exact ⟨rfl, rfl⟩
  | cons el_rpc rest ih =>
      cases responses with
      | nil => cases hlen
      | cons x responses =>
          have hrest : responses.length = rest.length := Nat.succ.inj hlen
          -- without a block the walk goes on, with this outcome among those seen
          have hstep : ∀ flag, (readSafeProbe x).block? = none →
              flag = decide (SafeProbe.Empty ∈ seen ++ [readSafeProbe x]) →
              ∃ tr result, tr <+: probesOf rest responses ∧
                (safeFromElRpcs flag rest).Runs tr result ∧
                SafeResolution (seen ++ (x :: responses).map readSafeProbe) result := by
            rintro flag hnone rfl
            have hseen' : (seen ++ [readSafeProbe x]).findSome? SafeProbe.block? = none := by
              rw [List.findSome?_append, hseen, Option.none_or, List.findSome?_singleton, hnone]
            obtain ⟨tr, result, hprefix, hruns, hres⟩ := ih hseen' hrest
            refine ⟨tr, result, hprefix, hruns, ?_⟩
            rw [List.append_assoc] at hres
            exact hres
          have hprobed : ∀ {tr}, tr <+: probesOf rest responses →
              (⟨.rpc (.ethGetBlockByNumber el_rpc .safe), x⟩ :: tr) <+:
                probesOf (el_rpc :: rest) (x :: responses) := by
            intro tr htr
            exact List.cons_prefix_cons.mpr ⟨rfl, htr⟩
          cases hprobe : readSafeProbe x with
          | Block n =>
              refine ⟨_, .ok (some n), hprobed (List.nil_prefix), ?_, ?_⟩
              · refine ⟨x, [], rfl, ?_⟩
                simp only [Prog.bind, hprobe]
                exact ⟨rfl, rfl⟩
              · refine .block ?_
                rw [List.findSome?_append, hseen, Option.none_or, List.map_cons, hprobe]
                rfl
          | Empty =>
              obtain ⟨tr, result, hprefix, hruns, hres⟩ := hstep true (by rw [hprobe]; rfl)
                (by simp [hprobe])
              refine ⟨_, result, hprobed hprefix, ⟨x, tr, rfl, ?_⟩, hres⟩
              simp only [Prog.bind, hprobe]
              exact hruns
          | Unsupported =>
              obtain ⟨tr, result, hprefix, hruns, hres⟩ :=
                hstep (decide (SafeProbe.Empty ∈ seen)) (by rw [hprobe]; rfl) (by simp [hprobe])
              refine ⟨_, result, hprobed hprefix, ⟨x, tr, rfl, ?_⟩, hres⟩
              simp only [Prog.bind, hprobe]
              exact hruns
          | Unreachable =>
              obtain ⟨tr, result, hprefix, hruns, hres⟩ :=
                hstep (decide (SafeProbe.Empty ∈ seen)) (by rw [hprobe]; rfl) (by simp [hprobe])
              refine ⟨_, result, hprobed hprefix, ⟨x, tr, rfl, ?_⟩, hres⟩
              simp only [Prog.bind, hprobe]
              exact hruns

/-- The resolver returns what the outcomes resolve to. -/
theorem resolvesTo_iff (hlen : responses.length = el_rpcs.length) :
    ResolvesTo el_rpcs responses result ↔
      SafeResolution (responses.map readSafeProbe) result := by
  have hseen : ([] : List SafeProbe).findSome? SafeProbe.block? = none := rfl
  obtain ⟨tr, result₀, ⟨rest, hrest⟩, hruns, hres⟩ := exists_runs_safeFromElRpcs hseen hlen
  constructor
  · rintro ⟨tr', ⟨rest', hrest'⟩, hruns'⟩
    obtain ⟨-, rfl⟩ := hruns.unique hruns' (hrest.trans hrest'.symm)
    exact hres
  · intro h
    obtain rfl := hres.unique h
    exact ⟨tr, ⟨rest, hrest⟩, hruns⟩

/-- Something can be returned when a provider serves the tag. -/
theorem SafeResolution.exists_ok_iff :
    (∃ n, SafeResolution outcomes (.ok n)) ↔ ∃ p ∈ outcomes, p.serves = true := by
  constructor
  · rintro ⟨n, h⟩
    cases h with
    | block hb =>
        obtain ⟨p, hp, hpn⟩ := List.exists_of_findSome?_eq_some hb
        cases p with
        | Block m => exact ⟨_, hp, rfl⟩
        | _ => cases hpn
    | empty _ he => exact ⟨_, he, rfl⟩
  · rintro ⟨p, hp, hserves⟩
    cases hb : outcomes.findSome? SafeProbe.block? with
    | some n => exact ⟨some n, .block hb⟩
    | none =>
        refine ⟨none, .empty hb ?_⟩
        cases p with
        | Block m => cases List.findSome?_eq_none_iff.mp hb _ hp
        | Empty => exact hp
        | Unsupported => cases hserves
        | Unreachable => cases hserves

/-! ## The preflight of a chain -/

theorem supported_iff {chain : Chain} {support : ChainSafeSupport}
    (hlen : responses.length = el_rpcs.length)
    (hruns : (preflightSafeSupport chain el_rpcs).Runs (probesOf el_rpcs responses)
      (.ok support)) :
    support.supported = true ↔ ∃ n, ResolvesTo el_rpcs responses (.ok n) := by
  have hwalk : (preflightSafeSupport chain el_rpcs).Runs (probesOf el_rpcs responses) _ :=
    runs_probeElRpcs hlen
  obtain rfl := Except.ok.inj (hruns.det hwalk)
  have hserved : (responses.any fun x => (readSafeProbe x).serves) =
      (responses.map readSafeProbe).any SafeProbe.serves := by
    rw [List.any_map]
    rfl
  rw [ChainSafeSupport.foldl_supported, Bool.false_or,
    any_zip_responses hlen fun x => (readSafeProbe x).serves, hserved, List.any_eq_true]
  simp only [resolvesTo_iff hlen]
  exact SafeResolution.exists_ok_iff.symm

end

/-! ## The configuration -/

/-- The chain's outcomes in a start-up. -/
def StartUp.outcomes (u : StartUp) (chain : Chain) : List SafeProbe :=
  (u.responses chain).map readSafeProbe

/-- Refused by somebody and served by nobody. -/
def RefusesSafe (outcomes : List SafeProbe) : Prop :=
  .Unsupported ∈ outcomes ∧ (∀ n, .Block n ∉ outcomes) ∧ .Empty ∉ outcomes

theorem refusesSafe_iff {responses : List HttpResponse} :
    RefusesSafe (responses.map readSafeProbe) ↔
    servesSafe responses = false := by
  have hany : ∀ p : SafeProbe → Bool, (responses.any fun x => p (readSafeProbe x)) =
      (responses.map readSafeProbe).any p := fun p => List.any_map.symm
  rw [servesSafe, List.all_eq_not_any_not, hany SafeProbe.serves]
  simp only [Bool.not_not]
  rw [hany SafeProbe.answers, Bool.or_eq_false_iff, Bool.not_eq_eq_eq_not, Bool.not_false,
    List.any_eq_false, List.any_eq_true]
  constructor
  · rintro ⟨hrefused, hblock, hempty⟩
    refine ⟨?_, _, hrefused, rfl⟩
    intro p hp hserves
    cases p with
    | Block n => exact hblock n hp
    | Empty => exact hempty hp
    | Unsupported => cases hserves
    | Unreachable => cases hserves
  · rintro ⟨hnone, p, hp, hanswers⟩
    refine ⟨?_, fun n hn => hnone _ hn rfl, fun hempty => hnone _ hempty rfl⟩
    cases p with
    | Block n => exact absurd rfl (hnone _ hp)
    | Empty => exact absurd rfl (hnone _ hp)
    | Unsupported => exact hp
    | Unreachable => cases hanswers

theorem Config.downgrade_others {cfg : Config} {answers : Chain → List HttpResponse}
    {chains : List (Chain × List String)} : ∃ eth gc, cfg.downgrade answers chains =
      { cfg with eth_block_processing_mode := eth, gc_block_processing_mode := gc } := by
  induction chains generalizing cfg with
  | nil => exact ⟨_, _, rfl⟩
  | cons c rest ih =>
      have hstep : cfg.downgrade answers (c :: rest) =
          Config.downgrade answers (if servesSafe (answers c.1) then cfg
            else cfg.setModeForChain c.1 .blockFinality) rest := rfl
      rw [hstep]
      split
      · exact ih
      · obtain ⟨eth, gc, heq⟩ := @ih (cfg.setModeForChain c.1 .blockFinality)
        refine ⟨eth, gc, heq.trans ?_⟩
        cases c.1 <;> rfl

/-- What a preflight may do to the configuration. -/
structure StartUp.Preflight (u : StartUp) (cfg : Config) : Prop where
  /-- a chain leaves fcr mode exactly when somebody refused and nobody served -/
  changed_iff : ∀ chain, cfg.modeForChain chain ≠ u.accepted.modeForChain chain ↔
    u.accepted.modeForChain chain = .fcr ∧ RefusesSafe (u.outcomes chain)
  to_finality : ∀ chain, cfg.modeForChain chain ≠ u.accepted.modeForChain chain →
    cfg.modeForChain chain = .blockFinality
  others : ∃ eth gc, cfg =
    { u.accepted with eth_block_processing_mode := eth, gc_block_processing_mode := gc }
  /-- where it leaves, the resolver has nothing to return -/
  downgraded : ∀ c ∈ u.accepted.fcrChains, cfg.modeForChain c.1 ≠ .fcr →
    ∀ n, ¬ ResolvesTo c.2 (u.responses c.1) (.ok n)
  /-- where it stays, not all who answered have refused -/
  kept : ∀ c ∈ u.accepted.fcrChains, cfg.modeForChain c.1 = .fcr →
    (∃ p ∈ u.outcomes c.1, p.answers = true) →
      ∃ p ∈ u.outcomes c.1, p.answers = true ∧ p ≠ .Unsupported

theorem BlockProcessingMode.eq_blockFinality {mode : BlockProcessingMode} (h : mode ≠ .fcr) :
    mode = .blockFinality := by
  cases mode with
  | fcr => exact absurd rfl h
  | blockFinality => rfl

theorem StartUp.Boots.preflight {u : StartUp} {cfg : Config} (h : u.Boots cfg) :
    u.Preflight cfg := by
  obtain rfl := Except.ok.inj (Prog.Runs.det h u.boots)
  have hmode : ∀ chain, u.config.modeForChain chain = .fcr ↔
      u.accepted.modeForChain chain = .fcr ∧ ¬ RefusesSafe (u.outcomes chain) := by
    intro chain
    rw [StartUp.config, Config.modeForChain_downgrade, StartUp.outcomes, refusesSafe_iff,
      Bool.not_eq_false]
    refine and_congr_right fun hfcr => ?_
    obtain ⟨el_rpcs, hmem⟩ := Config.mem_fcrChains_iff.mpr hfcr
    constructor
    · intro hall
      exact hall _ hmem rfl
    · intro hserves c _ _
      exact hserves
  have hchanged : ∀ chain, u.config.modeForChain chain ≠ u.accepted.modeForChain chain ↔
      u.accepted.modeForChain chain = .fcr ∧ RefusesSafe (u.outcomes chain) := by
    intro chain
    by_cases hfcr : u.accepted.modeForChain chain = .fcr
    · rw [hfcr, ne_eq, hmode]
      tauto
    · have hkept : u.config.modeForChain chain ≠ .fcr := fun hcfg => hfcr ((hmode chain).mp hcfg).1
      rw [BlockProcessingMode.eq_blockFinality hfcr, BlockProcessingMode.eq_blockFinality hkept]
      simp
  refine ⟨hchanged, ?_, Config.downgrade_others, ?_, ?_⟩
  · intro chain hne
    obtain ⟨hfcr, -⟩ := (hchanged chain).mp hne
    rw [hfcr] at hne
    exact BlockProcessingMode.eq_blockFinality hne
  · intro c hc hleft n hresolves
    have hfcr : u.accepted.modeForChain c.1 = .fcr := Config.mem_fcrChains_iff.mp ⟨c.2, hc⟩
    have hrefuses : RefusesSafe (u.outcomes c.1) := by
      by_contra hnot
      exact hleft ((hmode c.1).mpr ⟨hfcr, hnot⟩)
    rw [resolvesTo_iff (u.probed c hc)] at hresolves
    obtain ⟨p, hp, hserves⟩ := SafeResolution.exists_ok_iff.mp ⟨n, hresolves⟩
    cases p with
    | Block m => exact hrefuses.2.1 m hp
    | Empty => exact hrefuses.2.2 hp
    | Unsupported => cases hserves
    | Unreachable => cases hserves
  · rintro c hc hkept ⟨p, hp, hanswers⟩
    obtain ⟨-, hnot⟩ := (hmode c.1).mp hkept
    by_contra hall
    have hrefused : ∀ q ∈ u.outcomes c.1, q.answers = true → q = .Unsupported := by
      intro q hq hanswers'
      by_contra hne
      exact hall ⟨q, hq, hanswers', hne⟩
    obtain rfl := hrefused p hp hanswers
    refine hnot ⟨hp, ?_, ?_⟩
    · intro n hn
      cases hrefused _ hn rfl
    · intro hempty
      cases hrefused _ hempty rfl

/-- The two walks agree on every array, and so does the preflight of the process. -/
structure SafeAgreement : Prop where
  /-- the first block, wherever it stands; else a legitimate empty; else an error -/
  resolves : ∀ el_rpcs responses result, responses.length = el_rpcs.length →
    (ResolvesTo el_rpcs responses result ↔
      SafeResolution (responses.map readSafeProbe) result)
  runs : ∀ chain el_rpcs responses, responses.length = el_rpcs.length →
    ∃ support, (preflightSafeSupport chain el_rpcs).Runs (probesOf el_rpcs responses)
      (.ok support)
  agrees : ∀ chain el_rpcs responses support, responses.length = el_rpcs.length →
    (preflightSafeSupport chain el_rpcs).Runs (probesOf el_rpcs responses) (.ok support) →
    (support.supported = true ↔ ∃ n, ResolvesTo el_rpcs responses (.ok n))
  boots : ∀ u : StartUp, ∃ cfg, u.Boots cfg
  preflight : ∀ (u : StartUp) cfg, u.Boots cfg → u.Preflight cfg

/-- **Preflight and resolver agree.** -/
theorem preflight_and_resolver_agree : SafeAgreement where
  resolves _ _ _ hlen := resolvesTo_iff hlen
  runs chain _ _ hlen := by
    obtain ⟨support, hruns, -⟩ := runs_preflightSafeSupport chain hlen
    exact ⟨support, hruns⟩
  agrees _ _ _ _ hlen hruns := supported_iff hlen hruns
  boots u := ⟨u.config, u.boots⟩
  preflight _ _ h := h.preflight

end BridgeValidator
