import BridgeValidator.RetryCeiling
import BridgeValidator.Settlement
import Mathlib.Order.Filter.AtTopBot.Basic
import Mathlib.Order.Filter.Finite

/-!
# No row is starved

`read_from_db` takes the rows in the order of their blocks. Each row is claimed only so often,
and every claim is settled; so the rows that are ahead of a row are out of its way in the end,
and the row itself is claimed until it is gone or has been tried as often as the ceiling
allows. Rows that arrive later must be behind it: the order is over the block numbers of both
chains, whatever the time of arrival.
-/

namespace BridgeValidator

open Interaction

variable {W : World} {lib : Externals}

/-! ## The order of the claims -/

/-- The place of a row does not change. -/
theorem EventLog.SameLog.claimLE_iff {a a' b b' : EventLog} (ha : a.SameLog a')
    (hb : b.SameLog b') : claimLE a' b' ↔ claimLE a b := by
  unfold claimLE
  rw [ha.block_number, ha.log_index, hb.block_number, hb.log_index]

instance : Std.Total claimLE where
  total a b := by
    unfold claimLE nullsLastLE
    grind

instance : IsTrans EventLog claimLE where
  trans a b c := by
    unfold claimLE nullsLastLE
    grind

/-- The row that is taken comes before every other one that could be. -/
theorem Db.claimCandidate_le {db : Db} {skip : Int → Bool} {max : Int} {c r : EventLog}
    (h : db.claimCandidate skip max = some c) (hr : r ∈ db.event_logs)
    (hclaimable : r.isClaimable max = true) (hskip : skip r.id = false)
    (hfree : r.id ∉ db.locked) : claimLE c r := by
  obtain ⟨rest, hsorted⟩ := List.head?_eq_some_iff.mp h
  have hmem : r ∈ c :: rest := by
    rw [← hsorted, List.mem_insertionSort, List.mem_filter]
    exact ⟨hr, by simp [hclaimable, hskip, hfree]⟩
  have horder := List.pairwise_insertionSort claimLE (db.event_logs.filter fun r =>
    r.isClaimable max && !skip r.id && decide (r.id ∉ db.locked))
  rw [hsorted, List.pairwise_cons] at horder
  rcases List.mem_cons.mp hmem with rfl | hrest
  · exact (Std.Total.total r r).elim id id
  · exact horder.1 r hrest

namespace Sys

variable {s t : Sys W} {l : Label} {ceiling id : Int}

/-- `read_from_db` is executed while no row lock is in its way. -/
def Polls (s : Sys W) (l : Label) (t : Sys W) : Prop :=
  ∃ k x, l = .call (.processor k) ⟨.db (.claim s.config.retryCeiling), x⟩ ∧
    s.shared.db.locked = [] ∧
    s.shared.db.exec (fun _ => false) (.claim s.config.retryCeiling) = (x, t.shared.db)

/-- The row of `id` can be claimed. -/
def Claimable (s : Sys W) (id : Int) : Prop :=
  ∃ r, s.row? id = some r ∧ r.isClaimable s.config.retryCeiling = true

/-- Where a row can be claimed a poll takes it, or one that is not behind it. -/
theorem Polls.claims (h : s.Polls l t) (hk : s.shared.db.Keyed) {r : EventLog}
    (hr : s.row? id = some r) (hclaimable : r.isClaimable s.config.retryCeiling = true) :
    ∃ c, s.row? c.id = some c ∧ l.claims c.id = true ∧ claimLE c r := by
  obtain ⟨k, x, rfl, hfree, hexec⟩ := h
  have hunlocked : r.id ∉ s.shared.db.locked := by
    rw [hfree]
    exact List.not_mem_nil
  cases hc : s.shared.db.claimCandidate (fun _ => false) s.config.retryCeiling with
  | some c =>
      simp only [Db.exec, Db.claim, hc, Prod.map_apply, Prod.mk.injEq] at hexec
      obtain ⟨rfl, -⟩ := hexec
      refine ⟨c, hk.row?_of_mem (Db.claimCandidate_spec hc).1, decide_eq_true rfl, ?_⟩
      exact Db.claimCandidate_le hc (Db.row?_mem hr) hclaimable rfl hunlocked
  | none =>
      rw [Db.claimCandidate, List.head?_eq_none_iff, ← List.length_eq_zero_iff,
        List.length_insertionSort, List.length_eq_zero_iff, List.filter_eq_nil_iff] at hc
      apply (hc r (Db.row?_mem hr)).elim
      simp [hclaimable, hunlocked]

/-! ## Rows at rest -/

/-- Nobody has marked the row as processed. -/
def Free (s : Sys W) (id : Int) : Prop := ∀ r, s.row? id = some r → r.is_processed = some false

/-- Every row is marked or not. -/
def Marked (s : Sys W) : Prop := ∀ id r, s.row? id = some r → r.is_processed ≠ none

/-- The row is gone, or has come to the ceiling and is not claimed. -/
def TriedOut (s : Sys W) (ceiling id : Int) : Prop :=
  ∀ r, s.row? id = some r → r.is_processed = some false ∧ r.retry_count = some ceiling

theorem Marked.step (h : s.Marked) (hs : s.Coherent lib) (hk : s.shared.db.Keyed)
    (hstep : s.Step lib l t) : t.Marked := by
  intro id r' hr'
  have hrow := hstep.rowStep hs hk id
  generalize hafter : t.row? id = after at hrow
  rw [hafter] at hr'
  subst hr'
  generalize hsome : some r' = after at hrow
  cases hrow with
  | same _ => exact h id r' hsome.symm
  | deleted => cases hsome
  | staged hr | checked hr =>
      obtain rfl := Option.some.inj hsome
      have hold := h id _ hr
      exact hold
  | inserted _ | claimed _ _ | released _ _ _ =>
      obtain rfl := Option.some.inj hsome
      intro hnone
      cases hnone

/-- Only a claim takes a free row. -/
theorem Free.step (h : s.Free id) (hs : s.Coherent lib) (hk : s.shared.db.Keyed)
    (hstep : s.Step lib l t) (hl : l.claims id = false) : t.Free id := by
  intro r' hr'
  have hrow := hstep.rowStep hs hk id
  generalize hafter : t.row? id = after at hrow
  rw [hafter] at hr'
  subst hr'
  generalize hsome : some r' = after at hrow
  cases hrow with
  | same _ => exact h r' hsome.symm
  | deleted => cases hsome
  | claimed hr _ =>
      have hid := Db.row?_id hr
      simp [Label.claims, EventLog.toRow, hid] at hl
  | staged hr | checked hr =>
      obtain rfl := Option.some.inj hsome
      have hold := h _ hr
      exact hold
  | inserted _ | released _ _ _ =>
      obtain rfl := Option.some.inj hsome
      rfl

/-- Only a claim takes the row out of the reach of the next poll. -/
theorem Claimable.step (h : s.Claimable id) (hs : s.Within lib ceiling)
    (ht : t.Within lib ceiling) (hstep : s.Step lib l t) (hl : l.claims id = false) :
    t.Claimable id := by
  obtain ⟨r, hr, hclaimable⟩ := h
  have hhand : ∀ data, s.inHand = some data → data.event_log_id ≠ id := by
    rintro data hdata rfl
    simp [EventLog.isClaimable, hs.below hdata hr] at hclaimable
  have hsame : t.config.retryCeiling = s.config.retryCeiling :=
    ht.ceiling_eq.trans hs.ceiling_eq.symm
  have hrow := hstep.rowStep hs.coherent hs.owned.keyed id
  generalize hafter : t.row? id = after at hrow
  unfold Claimable
  rw [hafter, hsame]
  cases hrow with
  | same _ => exact ⟨r, hr, hclaimable⟩
  | inserted hid => exact absurd hid (hs.owned.keyed.lt_next_of_row? hr).ne
  | claimed hr' _ =>
      have hid := Db.row?_id hr'
      simp [Label.claims, EventLog.toRow, hid] at hl
  | staged _ hdata hid => exact absurd hid (hhand _ hdata)
  | released _ hdata hid => exact absurd hid (hhand _ hdata)
  | deleted hdata hid => exact absurd hid (hhand _ hdata)
  | checked hr' =>
      obtain rfl := Option.some.inj (hr.symm.trans hr')
      exact ⟨_, rfl, hclaimable⟩

/-- A free row that cannot be claimed has come to the ceiling. -/
theorem Free.triedOut (h : s.Free id) (hs : s.Within lib ceiling) (hnone : ¬s.Claimable id) :
    s.TriedOut ceiling id := by
  intro r hr
  obtain ⟨n, hn, -, hle, -⟩ := hs.rows id r hr
  have hp := h r hr
  have hnot : ¬n < ceiling := by
    intro hlt
    apply hnone
    refine ⟨r, hr, ?_⟩
    simp [EventLog.isClaimable, hp, hn, hs.ceiling_eq, hlt]
  refine ⟨hp, ?_⟩
  rw [hn]
  congr 1
  omega

/-! ## Who came when -/

/-- Rows with ids below `b` are those of `s₀`; the others came later, and are behind `r`. -/
structure Arrived (s₀ : Sys W) (r : EventLog) (b : Int) (s : Sys W) : Prop where
  old : ∀ id < b, ∀ r', s.row? id = some r' → ∃ r₀, s₀.row? id = some r₀ ∧ r₀.SameLog r'
  behind : ∀ id, b ≤ id → ∀ r', s.row? id = some r' → ¬claimLE r' r
  drawn : b ≤ s.shared.db.next_id

theorem Arrived.step {s₀ : Sys W} {r : EventLog} {b : Int} (h : Arrived s₀ r b s)
    (hk : s.shared.db.Keyed) (hstep : s.Step lib l t)
    (hnew : ∀ id r', s.row? id = none → t.row? id = some r' → ¬claimLE r' r) :
    Arrived s₀ r b t := by
  refine ⟨fun id hid r' hr' => ?_, fun id hid r' hr' => ?_, h.drawn.trans (hstep.next_id_le hk)⟩
  · obtain ⟨r₁, hr₁, hsame⟩ := hstep.sameLog hk (hid.trans_le h.drawn) hr'
    obtain ⟨r₀, hr₀, hsame₀⟩ := h.old id hid r₁ hr₁
    exact ⟨r₀, hr₀, hsame₀.trans hsame⟩
  · cases hr : s.row? id with
    | none => exact hnew id r' hr hr'
    | some r₁ =>
        obtain ⟨r₂, hr₂, hsame⟩ := hstep.sameLog hk (hk.lt_next_of_row? hr) hr'
        rw [hsame.claimLE_iff .refl]
        exact h.behind id hid r₂ hr₂

end Sys

/-- The processors poll on: if a row can be claimed for ever, some poll comes to the table
when nobody has locked a row. -/
structure Attentive (p : (system lib W).Path) : Prop extends Diligent p where
  polls : ∀ k id, (∀ j, k ≤ j → (p.state j).Claimable id) →
    ∃ j, k ≤ j ∧ (p.state j).Polls (p.label j) (p.state (j + 1))

/-! ## Along an endless run -/

section

variable {p : (system lib W).Path} {ceiling id : Int} {n : Nat}

theorem within_of_path (h : (p.state 0).Within lib ceiling)
    (hl : ∀ k, (p.label k).keepsCeiling ceiling = true) (k : Nat) :
    (p.state k).Within lib ceiling := by
  induction k with
  | zero => exact h
  | succ k ih => exact ih.step (p.step k) (hl k)

theorem marked_of_path (h : (p.state 0).Marked) (hw : ∀ k, (p.state k).Within lib ceiling)
    (k : Nat) : (p.state k).Marked := by
  induction k with
  | zero => exact h
  | succ k ih => exact ih.step (hw k).coherent (hw k).owned.keyed (p.step k)

/-- The rows there are are claimed for a last time. -/
theorem exists_last_claim (hw : ∀ k, (p.state k).Within lib ceiling)
    (hl : ∀ k, (p.label k).keepsCeiling ceiling = true) (n : Nat) :
    ∃ m, n ≤ m ∧ ∀ k, m ≤ k → ∀ id r, (p.state n).row? id = some r →
      (p.label k).claims id = false := by
  have hbound : ∀ id ∈ (p.state n).shared.db.event_logs.map EventLog.id, ∀ k,
      ((List.range k).map (p.drop n).label).countP (Label.claims id) ≤
        claimsLeft ceiling ((p.state n).row? id) := by
    intro id hid k
    obtain ⟨r, hr, rfl⟩ := List.mem_map.mp hid
    refine (hw n).claims_le (((p.drop n).run k).guarded_of_labels ?_)
      ((hw n).owned.keyed.lt_next r hr)
    intro l hmem
    obtain ⟨j, -, rfl⟩ := List.mem_map.mp hmem
    exact hl (n + j)
  obtain ⟨m, hm⟩ := (p.drop n).eventually_forall_not Label.claims _ hbound
  refine ⟨n + m, Nat.le_add_right n m, fun k hk id r hr => ?_⟩
  obtain ⟨j, rfl⟩ := Nat.exists_eq_add_of_le hk
  rw [Nat.add_assoc]
  refine hm (m + j) (Nat.le_add_right m j) id ?_
  rw [← Db.row?_id hr]
  exact List.mem_map_of_mem (Db.row?_mem hr)

/-- A claimed row is let go some time. -/
theorem exists_free (h : ∀ k, (p.state k).Tended lib)
    (hcareful : ∀ k, (p.state k).Careful lib (p.label k)) (hd : Diligent p)
    (hmarked : ∀ k, (p.state k).Marked) (k : Nat) (id : Int) :
    ∃ j, k ≤ j ∧ (p.state j).Free id := by
  by_contra hnever
  push Not at hnever
  have hbusy := hnever k le_rfl
  unfold Sys.Free at hbusy
  push Not at hbusy
  obtain ⟨r, hr, hp⟩ := hbusy
  have hclaimed : r.is_processed = some true := by
    have hmark := hmarked k id r hr
    cases hflag : r.is_processed with
    | none => exact absurd hflag hmark
    | some b =>
        cases b with
        | false => exact absurd hflag hp
        | true => rfl
  obtain ⟨i, hi, hsettles⟩ := exists_settles h hcareful hd hr hclaimed
  apply hnever (i + 1) (Nat.le_succ_of_le hi)
  intro r' hr'
  generalize p.label i = l at hsettles
  cases hsettles with
  | deleted hrow => cases hrow.symm.trans hr'
  | released _ hrow =>
      obtain rfl := Option.some.inj (hrow.symm.trans hr')
      rfl

theorem arrived_of_path (hw : ∀ k, (p.state k).Within lib ceiling) {r : EventLog}
    (hnew : ∀ k, n ≤ k → ∀ id r', (p.state k).row? id = none →
      (p.state (k + 1)).row? id = some r' → ¬claimLE r' r) {k : Nat} (hk : n ≤ k) :
    Sys.Arrived (p.state n) r (p.state n).shared.db.next_id (p.state k) := by
  induction hk with
  | refl =>
      refine ⟨fun id _ r' hr' => ⟨r', hr', .refl⟩, fun id hid r' hr' => ?_, le_rfl⟩
      exact absurd ((hw n).owned.keyed.lt_next_of_row? hr') (not_lt.mpr hid)
  | @step k hk ih => exact ih.step (hw k).owned.keyed (p.step k) (hnew k hk)

/-- Once it is not claimed any more, and those ahead of it neither, a row cannot be claimed. -/
theorem not_claimable (hw : ∀ k, (p.state k).Within lib ceiling) (ha : Attentive p)
    {r : EventLog} (hr : (p.state n).row? id = some r)
    (hnew : ∀ k, n ≤ k → ∀ id r', (p.state k).row? id = none →
      (p.state (k + 1)).row? id = some r' → ¬claimLE r' r) {m : Nat} (hm : n ≤ m)
    (hlast : ∀ k, m ≤ k → ∀ id r, (p.state n).row? id = some r → (p.label k).claims id = false) :
    ¬(p.state m).Claimable id := by
  intro hclaimable
  have hstays : ∀ j, m ≤ j → (p.state j).Claimable id := by
    intro j hj
    induction hj with
    | refl => exact hclaimable
    | @step j hj ih => exact ih.step (hw j) (hw (j + 1)) (p.step j) (hlast j hj id r hr)
  obtain ⟨j, hj, hpolls⟩ := ha.polls m id hstays
  obtain ⟨r', hr', hcl⟩ := hstays j hj
  obtain ⟨c, hc, hclaims, hle⟩ := hpolls.claims (hw j).owned.keyed hr' hcl
  have harrived := arrived_of_path hw hnew (hm.trans hj)
  -- the row is where it was, so what is taken before it was there as well
  obtain ⟨r₀, hr₀, hsame⟩ := harrived.old id ((hw n).owned.keyed.lt_next_of_row? hr) r' hr'
  obtain rfl := Option.some.inj (hr.symm.trans hr₀)
  have hold : c.id < (p.state n).shared.db.next_id := by
    by_contra hnot
    apply harrived.behind c.id (not_lt.mp hnot) c hc
    exact (EventLog.SameLog.refl.claimLE_iff hsame).mp hle
  obtain ⟨c₀, hc₀, -⟩ := harrived.old c.id hold c hc
  cases hclaims.symm.trans (hlast j hj c.id c₀ hc₀)

/-- From some point on the row is gone or given up. -/
theorem eventually_triedOut (h : ∀ k, (p.state k).Tended lib)
    (hcareful : ∀ k, (p.state k).Careful lib (p.label k)) (ha : Attentive p)
    (hw : ∀ k, (p.state k).Within lib ceiling) (hmarked : ∀ k, (p.state k).Marked)
    (hl : ∀ k, (p.label k).keepsCeiling ceiling = true) {r : EventLog}
    (hr : (p.state n).row? id = some r)
    (hnew : ∀ k, n ≤ k → ∀ id r', (p.state k).row? id = none →
      (p.state (k + 1)).row? id = some r' → ¬claimLE r' r) :
    ∀ᶠ k in Filter.atTop, (p.state k).TriedOut ceiling id := by
  obtain ⟨m, hm, hlast⟩ := exists_last_claim hw hl n
  obtain ⟨j, hj, hfree⟩ := exists_free h hcareful ha.toDiligent hmarked m id
  have hstays : ∀ k, j ≤ k → (p.state k).Free id := by
    intro k hk
    induction hk with
    | refl => exact hfree
    | @step k hk ih =>
        exact ih.step (hw k).coherent (hw k).owned.keyed (p.step k)
          (hlast k (hj.trans hk) id r hr)
  refine Filter.eventually_atTop.mpr ⟨j, fun k hk => ?_⟩
  apply (hstays k hk).triedOut (hw k)
  apply not_claimable hw ha hr hnew (hm.trans (hj.trans hk))
  exact fun i hi => hlast i ((hj.trans hk).trans hi)

end

section

variable {cfg : Config} {w : W.State} {p : (system lib W).Path}

theorem invariants_of_path (hboot : p.state 0 = Sys.boot cfg Db.empty w)
    (hcareful : ∀ k, (p.state k).Careful lib (p.label k))
    (hceiling : ∀ k, (p.label k).keepsCeiling cfg.retryCeiling = true) :
    (∀ k, (p.state k).Tended lib) ∧ (∀ k, (p.state k).Within lib cfg.retryCeiling) ∧
      ∀ k, (p.state k).Marked := by
  have hw : ∀ k, (p.state k).Within lib cfg.retryCeiling := by
    apply within_of_path _ hceiling
    rw [hboot]
    exact (Sys.within_of_run .nil).1
  refine ⟨?_, hw, ?_⟩
  · apply tended_of_careful _ hcareful
    rw [hboot]
    exact Sys.tended_boot ⟨Db.keyed_empty, rfl, List.forall_mem_nil _, List.forall_mem_nil _⟩
      (List.forall_mem_nil _)
  · apply marked_of_path _ hw
    rw [hboot]
    intro id r hr
    cases hr

end

/-- **No row is starved.** In every endless run in which nothing goes wrong, everybody is
diligent and the processors poll on, a row is deleted or tried as often as the ceiling allows
and let go, however many rows arrive, so long as they are behind it in the order of the
blocks. -/
theorem no_row_is_starved {cfg : Config} {w : W.State} (p : (system lib W).Path)
    (hboot : p.state 0 = Sys.boot cfg Db.empty w)
    (hcareful : ∀ k, (p.state k).Careful lib (p.label k)) (ha : Attentive p)
    (hceiling : ∀ k, (p.label k).keepsCeiling cfg.retryCeiling = true) {n : Nat} {id : Int}
    {r : EventLog} (hr : (p.state n).row? id = some r)
    (hbehind : ∀ k, n ≤ k → ∀ id r', (p.state k).row? id = none →
      (p.state (k + 1)).row? id = some r' → ¬claimLE r' r) :
    ∃ m, ∀ k, m ≤ k → (p.state k).TriedOut cfg.retryCeiling id := by
  obtain ⟨htended, hw, hmarked⟩ := invariants_of_path hboot hcareful hceiling
  exact Filter.eventually_atTop.mp
    (eventually_triedOut htended hcareful ha hw hmarked hceiling hr hbehind)

/-- An affirmation for which no contract can be reached: it is tried five times and left. -/
theorem Deployment.exists_exhausted :
    ∃ (p : (system externals World.any).Path) (n : Nat),
      p.state 0 = Sys.boot config Db.empty () ∧
      (∀ k, (p.state k).Careful externals (p.label k)) ∧ Attentive p ∧
      (∀ k, (p.label k).keepsCeiling config.retryCeiling = true) ∧
      (∀ k, n ≤ k → (p.label k).addsRow = false) ∧ ∀ k, n ≤ k → (p.state k).row? 1 ≠ none := by
  obtain ⟨p, ls, t, hfirst, hcareful, hlive, hdiligent, hrest, -, hcheck⟩ := exists_path
    (.index .ETHAmb (lookups (.repeatByte 32 0xaa)) ::
      (List.replicate 5 [.process .msg_processor_1 (lookups (.repeatByte 32 0xaa)),
        .send (lookups (.repeatByte 32 0xaa))]).flatten)
    (fun q => (q.2.row? 1).isSome &&
      q.2.shared.db.event_logs.all fun r => !r.isClaimable q.2.config.retryCeiling)
    (by decide +kernel)
  simp only [Bool.and_eq_true, List.all_eq_true, Bool.not_eq_true'] at hcheck
  obtain ⟨hrow, hnone⟩ := hcheck
  refine ⟨p, ls.length, hfirst, hcareful, ⟨hdiligent, fun k id hclaimable => ?_⟩, fun k => ?_,
    fun k hk => ?_, fun k hk => ?_⟩
  · obtain ⟨r, hr, hcl⟩ := hclaimable (max k ls.length) (le_max_left k _)
    rw [(hrest _ (le_max_right k _)).1] at hr hcl
    cases (hnone r (Db.row?_mem hr)).symm.trans hcl
  · have hends := hlive k
    cases hl : p.label k with
    | restart cfg =>
        rw [hl] at hends
        cases hends
    | _ => rfl
  · rw [(hrest k hk).2]
    rfl
  · rw [(hrest k hk).1]
    exact Option.isSome_iff_ne_none.mp hrow

theorem no_row_is_starved_exhausted :
    ∃ (p : (system Deployment.externals World.any).Path) (m : Nat), ∀ k, m ≤ k →
      (p.state k).row? 1 ≠ none ∧ (p.state k).TriedOut Deployment.config.retryCeiling 1 := by
  obtain ⟨p, n, hboot, hcareful, ha, hceiling, hquiet, hthere⟩ := Deployment.exists_exhausted
  have hw := (invariants_of_path hboot hcareful hceiling).2.1
  obtain ⟨r, hr⟩ := Option.ne_none_iff_exists'.mp (hthere n le_rfl)
  obtain ⟨m, hm⟩ := no_row_is_starved p hboot hcareful ha hceiling hr fun k hk id r' hrow hr' => by
    cases ((p.step k).row?_none (hw k).coherent (hw k).owned.keyed (hquiet k hk) hrow).symm.trans
      hr'
  exact ⟨p, max m n, fun k hk =>
    ⟨hthere k ((le_max_right m n).trans hk), hm k ((le_max_left m n).trans hk)⟩⟩

/-- **The backlog is worked off.** Once no rows are added any more there is a point from
which on no claim is held, and all that is left in the table has been tried as often as the
ceiling allows. -/
theorem backlog_is_worked_off {cfg : Config} {w : W.State} (p : (system lib W).Path)
    (hboot : p.state 0 = Sys.boot cfg Db.empty w)
    (hcareful : ∀ k, (p.state k).Careful lib (p.label k)) (ha : Attentive p)
    (hceiling : ∀ k, (p.label k).keepsCeiling cfg.retryCeiling = true) {n : Nat}
    (hquiet : ∀ k, n ≤ k → (p.label k).addsRow = false) :
    ∃ m, ∀ k, m ≤ k → (∀ id, (p.state k).TriedOut cfg.retryCeiling id) ∧
      (p.state k).held = 0 := by
  obtain ⟨htended, hw, hmarked⟩ := invariants_of_path hboot hcareful hceiling
  have hnone : ∀ k, n ≤ k → ∀ id, (p.state k).row? id = none →
      (p.state (k + 1)).row? id = none := fun k hk id hrow =>
    (p.step k).row?_none (hw k).coherent (hw k).owned.keyed (hquiet k hk) hrow
  have hrows : ∀ᶠ k in Filter.atTop, ∀ id ∈ (p.state n).shared.db.event_logs.map EventLog.id,
      (p.state k).TriedOut cfg.retryCeiling id := by
    refine (Filter.eventually_all_finite (List.finite_toSet _)).mpr fun id hid => ?_
    obtain ⟨r, hr, rfl⟩ := List.mem_map.mp hid
    refine eventually_triedOut htended hcareful ha hw hmarked hceiling
      ((hw n).owned.keyed.row?_of_mem hr) fun k hk id r' hrow hr' => ?_
    cases (hnone k hk id hrow).symm.trans hr'
  have hothers : ∀ k, n ≤ k → ∀ id, (p.state n).row? id = none → (p.state k).row? id = none := by
    intro k hk id hrow
    induction hk with
    | refl => exact hrow
    | @step k hk ih => exact hnone k hk id ih
  obtain ⟨m, hm⟩ := Filter.eventually_atTop.mp hrows
  have hout : ∀ k, max m n ≤ k → ∀ id, (p.state k).TriedOut cfg.retryCeiling id := by
    intro k hk id
    cases hrow : (p.state n).row? id with
    | none =>
        intro r hr
        cases (hothers k ((le_max_right m n).trans hk) id hrow).symm.trans hr
    | some r =>
        apply hm k ((le_max_left m n).trans hk) id
        rw [← Db.row?_id hrow]
        exact List.mem_map_of_mem (Db.row?_mem hrow)
  refine ⟨max m n, fun k hk => ⟨hout k hk, ?_⟩⟩
  apply Multiset.eq_zero_of_forall_notMem
  intro id hid
  obtain ⟨r, hr, hp⟩ := (hw k).owned.held_row hid
  rw [(hout k hk id r hr).1] at hp
  cases hp

theorem backlog_is_worked_off_exhausted :
    ∃ (p : (system Deployment.externals World.any).Path) (m : Nat), ∀ k, m ≤ k →
      (∀ id, (p.state k).TriedOut Deployment.config.retryCeiling id) ∧ (p.state k).held = 0 := by
  obtain ⟨p, n, hboot, hcareful, ha, hceiling, hquiet, -⟩ := Deployment.exists_exhausted
  obtain ⟨m, hm⟩ := backlog_is_worked_off p hboot hcareful ha hceiling hquiet
  exact ⟨p, m, hm⟩

end BridgeValidator
