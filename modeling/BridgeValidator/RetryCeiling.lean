import BridgeValidator.RevertedRows

/-!
# The retry ceiling

A row is claimed under the ceiling and released with one retry more, by the one
who holds it and once only. So its count stays within the ceiling, every claim is
paid for, and a row that has come to the ceiling rests: nobody holds it and
nobody will. With no new rows the claims run out.
-/

namespace BridgeValidator

open Interaction

variable {W : World} {lib : Externals}

/-! ## Within the ceiling -/

/-- The count is within the ceiling, and below it while somebody holds the row. -/
def EventLog.Within (ceiling : Int) (r : EventLog) : Prop :=
  ∃ n, r.retry_count = some n ∧ 0 ≤ n ∧ n ≤ ceiling ∧ (r.is_processed = some true → n < ceiling)

/-- Every restart keeps the ceiling. -/
def Label.keepsCeiling (ceiling : Int) : Label → Bool
  | .restart cfg => decide (cfg.retryCeiling = ceiling)
  | _ => true

/-- The system, started again with the same ceiling only. -/
def steady (lib : Externals) (W : World) (ceiling : Int) : Machine (Sys W) Label :=
  (system lib W).guarded fun _ l _ => l.keepsCeiling ceiling = true

section

variable {ceiling : Int} {r : EventLog}

theorem EventLog.Within.of_isClaimable (h : r.Within ceiling) (hcl : r.isClaimable ceiling = true) :
    r.claimed.Within ceiling := by
  obtain ⟨n, hn, hpos, hle, -⟩ := h
  unfold isClaimable at hcl
  rw [hn] at hcl
  simp only [Bool.and_eq_true, decide_eq_true_eq] at hcl
  exact ⟨n, hn, hpos, hle, fun _ => hcl.2⟩

theorem EventLog.Within.released (h : r.Within ceiling) (hp : r.is_processed = some true) :
    r.released.Within ceiling := by
  obtain ⟨n, hn, hpos, -, hlt⟩ := h
  have hbelow := hlt hp
  refine ⟨n + 1, ?_, by omega, by omega, fun hfree => ?_⟩
  · rw [EventLog.released_retry_count, hn, Option.map_some]
  · cases hfree

/-- A row that has not been claimed can be claimed as often as the ceiling says. -/
theorem NewEventLog.within {n : NewEventLog} {id : Int} (hceiling : 1 ≤ ceiling) :
    (n.toRow id).Within ceiling :=
  ⟨0, rfl, le_refl _, by omega, fun _ => by omega⟩

theorem EventLog.Within.claimsLeft_le (h : r.Within ceiling) :
    r.claimsLeft ceiling ≤ ceiling.toNat := by
  obtain ⟨n, hn, hpos, -, -⟩ := h
  simp only [EventLog.claimsLeft, hn, Option.elim]
  split <;> omega

end

namespace Sys

variable {s t : Sys W} {l : Label} {ls : List Label} {ceiling id : Int} {after : Option EventLog}

/-- All rows are within the ceiling. -/
structure Within (lib : Externals) (ceiling : Int) (s : Sys W) : Prop where
  coherent : s.Coherent lib
  owned : s.Owned
  ceiling_eq : s.config.retryCeiling = ceiling
  rows : ∀ id r, s.row? id = some r → r.Within ceiling

/-- Whoever has the row in hand has claimed it. -/
theorem Within.below (h : s.Within lib ceiling) {data : SenderData} {r : EventLog}
    (hhand : s.inHand = some data) (hr : s.row? data.event_log_id = some r) :
    r.is_processed = some true := by
  obtain ⟨r', hr', hp⟩ := h.owned.held_row (mem_held_of_inHand hhand)
  obtain rfl := Option.some.inj (hr.symm.trans hr')
  exact hp

theorem Within.row (h : s.Within lib ceiling) (hrow : s.RowStep id l after) :
    ∀ r, after = some r → r.Within ceiling := by
  intro r hr
  have hpos := s.config.retryCeiling_pos
  cases hrow with
  | same _ => exact h.rows id r hr
  | inserted hid =>
      obtain rfl := Option.some.inj hr
      exact NewEventLog.within (h.ceiling_eq ▸ hpos)
  | claimed hr' hcl =>
      obtain rfl := Option.some.inj hr
      rw [h.ceiling_eq] at hcl
      exact (h.rows id _ hr').of_isClaimable hcl
  | released hr' hhand hid =>
      obtain rfl := Option.some.inj hr
      subst hid
      exact (h.rows _ _ hr').released (h.below hhand hr')
  | deleted => cases hr
  | staged hr' | checked hr' =>
      obtain rfl := Option.some.inj hr
      have hold := h.rows id _ hr'
      exact hold

theorem Within.step (h : s.Within lib ceiling) (hstep : s.Step lib l t)
    (hl : l.keepsCeiling ceiling = true) : t.Within lib ceiling := by
  refine ⟨h.coherent.step hstep, h.owned.step h.coherent hstep, ?_, fun id r hr => ?_⟩
  · cases l with
    | restart cfg =>
        cases hstep
        exact of_decide_eq_true hl
    | _ => exact (congrArg Config.retryCeiling (hstep.config_eq rfl)).trans h.ceiling_eq
  · exact h.row (hstep.rowStep h.coherent h.owned.keyed id) r hr

/-! ## Claims are paid for -/

/-- A row that is not there is not claimed. -/
theorem claims_of_none (hk : s.shared.db.Keyed) (hstep : s.Step lib l t) (hr : s.row? id = none) :
    l.claims id = false := by
  cases hl : l.claims id with
  | false => rfl
  | true =>
      obtain ⟨v, max, r, -, hr', -, -⟩ := hstep.claims hk hl
      cases hr.symm.trans hr'

/-- The claims of a row and those it still has left are within the ceiling; an id
that has not been drawn has not been claimed. -/
structure Paid (ceiling : Int) (ls : List Label) (s : Sys W) : Prop where
  drawn : ∀ id, ls.countP (Label.claims id) + claimsLeft ceiling (s.row? id) ≤ ceiling.toNat
  fresh : ∀ id, s.shared.db.next_id ≤ id → ls.countP (Label.claims id) = 0

theorem Paid.step (h : s.Paid ceiling ls) (hs : s.Within lib ceiling) (hstep : s.Step lib l t) :
    t.Paid ceiling (ls ++ [l]) := by
  have hk := hs.owned.keyed
  have hcount : ∀ id, (ls ++ [l]).countP (Label.claims id) =
      ls.countP (Label.claims id) + if l.claims id then 1 else 0 := fun id => by
    rw [List.countP_append, List.countP_singleton]
  constructor
  · intro id
    have hrow := hstep.rowStep hs.coherent hk id
    have hold := h.drawn id
    rw [hcount]
    by_cases hid : id < s.shared.db.next_id
    · have hpaid := hrow.claimsLeft_le hid hs.ceiling_eq
      omega
    · -- the row is not there yet, or is just being inserted
      have hnone : s.row? id = none := hk.row?_of_next_le (not_lt.mp hid)
      have hfree := claims_of_none hk hstep hnone
      have hfresh := h.fresh id (not_lt.mp hid)
      rw [hfree, hfresh]
      generalize t.row? id = after at hrow
      cases hrow with
      | inserted hnew =>
          have hpos := hs.ceiling_eq ▸ s.config.retryCeiling_pos
          simpa [claimsLeft] using (NewEventLog.within hpos).claimsLeft_le
      | same _ => simp [hnone, claimsLeft]
      | deleted => simp [claimsLeft]
      | claimed hr | staged hr | released hr | checked hr => cases hnone.symm.trans hr
  · intro id hid
    have hle := hstep.next_id_le hk
    have hnone : s.row? id = none := hk.row?_of_next_le (hle.trans hid)
    rw [hcount, h.fresh id (hle.trans hid), claims_of_none hk hstep hnone]
    rfl

theorem within_of_run {cfg : Config} {w : W.State}
    (hrun : (steady lib W cfg.retryCeiling).Run (boot cfg Db.empty w) ls s) :
    s.Within lib cfg.retryCeiling ∧ s.Paid cfg.retryCeiling ls := by
  induction hrun with
  | nil =>
      refine ⟨⟨coherent_boot, owned_boot, rfl, fun id r hr => by cases hr⟩, fun id => ?_,
        fun id _ => rfl⟩
      exact Nat.zero_le _
  | snoc _ hstep ih => exact ⟨ih.1.step hstep.1 hstep.2, ih.2.step ih.1 hstep.1⟩

theorem Within.run (h : s.Within lib ceiling) (hrun : (steady lib W ceiling).Run s ls t) :
    t.Within lib ceiling :=
  hrun.invariant (fun _ _ _ hs hstep => hs.step hstep.1 hstep.2) h

/-! ## A row at the ceiling -/

/-- The row of `r` has come to the ceiling; only its verdict can still change. -/
structure Spent (lib : Externals) (ceiling : Int) (r : EventLog) (s : Sys W) : Prop where
  within : s.Within lib ceiling
  row : ∃ status, s.row? r.id = some { r with fcr_status := status }
  at_ceiling : r.retry_count = some ceiling

theorem Spent.step {r : EventLog} (h : s.Spent lib ceiling r) (hstep : s.Step lib l t) :
    l.claims r.id = false ∧ (t.row? r.id = s.row? r.id ∨ ∃ st x status,
      l = .call .fcr_checker ⟨.db st, x⟩ ∧
        t.row? r.id = some { r with fcr_status := some status }) := by
  obtain ⟨status, hr⟩ := h.row
  have hk := h.within.owned.keyed
  have hrest : r.is_processed ≠ some true := by
    intro hp
    obtain ⟨n, hn, -, -, hlt⟩ := h.within.rows _ _ hr
    obtain rfl := Option.some.inj (h.at_ceiling.symm.trans hn)
    exact lt_irrefl _ (hlt hp)
  have hfree : ∀ data, s.inHand = some data → data.event_log_id ≠ r.id := by
    intro data hhand hid
    have hp := h.within.below hhand (hid ▸ hr)
    exact hrest hp
  have hrow := hstep.rowStep h.within.coherent hk r.id
  generalize t.row? r.id = after at hrow ⊢
  cases hrow with
  | same hl => exact ⟨hl, Or.inl rfl⟩
  | inserted hid => exact absurd hid (hk.lt_next_of_row? hr).ne
  | claimed hr' hcl =>
      obtain rfl := Option.some.inj (hr.symm.trans hr')
      rw [h.within.ceiling_eq] at hcl
      simp [EventLog.isClaimable, h.at_ceiling] at hcl
  | staged _ hhand hid => exact absurd hid (hfree _ hhand)
  | released _ hhand hid => exact absurd hid (hfree _ hhand)
  | deleted hhand hid => exact absurd hid (hfree _ hhand)
  | @checked st x status' r' hr' hst =>
      obtain rfl := Option.some.inj (hr.symm.trans hr')
      refine ⟨?_, Or.inr ⟨st, x, status', rfl, rfl⟩⟩
      cases st <;> first | rfl | cases hst

theorem Spent.run {r : EventLog} (h : s.Spent lib ceiling r)
    (hrun : (steady lib W ceiling).Run s ls t) :
    t.Spent lib ceiling r ∧ ls.countP (Label.claims r.id) = 0 := by
  induction hrun with
  | nil => exact ⟨h, rfl⟩
  | snoc _ hstep ih =>
      obtain ⟨hspent, hcount⟩ := ih
      obtain ⟨hl, hrow⟩ := hspent.step hstep.1
      refine ⟨⟨hspent.within.step hstep.1 hstep.2, ?_, h.at_ceiling⟩, ?_⟩
      · rcases hrow with hrow | ⟨_, _, status, _, hrow⟩
        · rw [hrow]
          exact hspent.row
        · exact ⟨some status, hrow⟩
      · rw [List.countP_append, hcount, List.countP_singleton, hl]
        rfl

end Sys

/-! ## The claims run out -/

/-- `read_from_db` has returned a row. -/
def Label.claimsSome : Label → Bool
  | .call _ ⟨.db (.claim _), .ok (some _)⟩ => true
  | _ => false

/-- An INSERT has added a row. -/
def Label.addsRow : Label → Bool
  | .call _ ⟨.db (.insertEventLog _), .ok 1⟩ => true
  | _ => false

theorem Label.claims_of_claimsSome {l : Label} (h : l.claimsSome = true) :
    ∃ id, l.claims id = true := by
  unfold claimsSome at h
  split at h
  · rename_i v max row
    exact ⟨row.id, decide_eq_true rfl⟩
  · cases h

namespace Sys

variable {s t : Sys W} {l : Label} {ls : List Label} {ceiling id : Int}

/-- Without an INSERT no row appears. -/
theorem Step.row?_none (hs : s.Coherent lib) (hk : s.shared.db.Keyed) (hstep : s.Step lib l t)
    (hl : l.addsRow = false) (hr : s.row? id = none) : t.row? id = none := by
  have hrow := hstep.rowStep hs hk id
  generalize t.row? id = after at hrow
  cases hrow with
  | same _ => exact hr
  | inserted _ => cases hl
  | deleted => rfl
  | claimed hr' | staged hr' | released hr' | checked hr' => cases hr.symm.trans hr'

theorem Within.row?_none (h : s.Within lib ceiling) (hrun : (steady lib W ceiling).Run s ls t)
    (hquiet : ∀ l ∈ ls, l.addsRow = false) (hr : s.row? id = none) : t.row? id = none := by
  induction hrun with
  | nil => exact hr
  | snoc hrun hstep ih =>
      have hs := h.run hrun
      have hl := hquiet _ (List.mem_append_right _ (List.mem_singleton_self _))
      apply hstep.1.row?_none hs.coherent hs.owned.keyed hl
      exact ih fun l hmem => hquiet l (List.mem_append_left _ hmem)

theorem Within.claims_le (h : s.Within lib ceiling) (hrun : (steady lib W ceiling).Run s ls t)
    (hid : id < s.shared.db.next_id) :
    ls.countP (Label.claims id) ≤ claimsLeft ceiling (s.row? id) := by
  have hstep : ∀ s l t, (s.Within lib ceiling ∧ id < s.shared.db.next_id) →
      (steady lib W ceiling).step s l t →
      (t.Within lib ceiling ∧ id < t.shared.db.next_id) ∧
        (if Label.claims id l then 1 else 0) + claimsLeft ceiling (t.row? id) ≤
          claimsLeft ceiling (s.row? id) := by
    rintro s l t ⟨hs, hid⟩ ⟨hstep, hl⟩
    have hnext := hstep.next_id_le hs.owned.keyed
    exact ⟨⟨hs.step hstep hl, by omega⟩,
      (hstep.rowStep hs.coherent hs.owned.keyed id).claimsLeft_le hid hs.ceiling_eq⟩
  have hbudget := (hrun.countP_budget ⟨h, hid⟩ hstep).2
  omega

/-- Every row that is claimed has been there from the start. -/
theorem Within.row_of_claim (h : s.Within lib ceiling) (hrun : (steady lib W ceiling).Run s ls t)
    (hquiet : ∀ l ∈ ls, l.addsRow = false) (hl : l ∈ ls) (hclaim : l.claims id = true) :
    ∃ r, s.row? id = some r := by
  obtain ⟨ls₁, m, m', ls₂, rfl, hrun₁, hstep, -⟩ := hrun.split hl
  have hm := h.run hrun₁
  obtain ⟨v, max, r, -, hr, -, -⟩ := hstep.1.claims hm.owned.keyed hclaim
  cases hrow : s.row? id with
  | some r₀ => exact ⟨r₀, rfl⟩
  | none =>
      have hnone := h.row?_none hrun₁ (fun l hmem => hquiet l (List.mem_append_left _ hmem)) hrow
      cases hnone.symm.trans hr

/-- With no new rows, all claims are paid for by the rows there are. -/
theorem Within.total (h : s.Within lib ceiling) (hrun : (steady lib W ceiling).Run s ls t)
    (hquiet : ∀ l ∈ ls, l.addsRow = false) :
    ls.countP Label.claimsSome ≤ s.shared.db.event_logs.length * ceiling.toNat := by
  rw [← List.length_map EventLog.id]
  refine countP_le_length_mul (q := Label.claims) ?_ ?_
  · intro l hl hclaim
    obtain ⟨id, hid⟩ := Label.claims_of_claimsSome hclaim
    obtain ⟨r, hr⟩ := h.row_of_claim hrun hquiet hl hid
    refine ⟨id, ?_, hid⟩
    rw [← Db.row?_id hr]
    exact List.mem_map_of_mem (Db.row?_mem hr)
  · intro id hid
    obtain ⟨r, hr, rfl⟩ := List.mem_map.mp hid
    have hk := h.owned.keyed
    have hle := h.claims_le hrun (hk.lt_next r hr)
    have hrow : s.row? r.id = some r := hk.row?_of_mem hr
    rw [hrow] at hle
    exact hle.trans (h.rows _ _ hrow).claimsLeft_le

end Sys

/-! ## The ceiling -/

/-- What the ceiling says about a run that has come to `s`, and about all that can
follow. -/
structure RetriesWithin (lib : Externals) (ceiling : Int) (ls : List Label) (s : Sys W) :
    Prop where
  /-- no count is above the ceiling -/
  counts : ∀ r ∈ s.shared.db.event_logs, ∃ n, r.retry_count = some n ∧ 0 ≤ n ∧ n ≤ ceiling
  /-- what is incremented stays an `i32` -/
  fits : ∀ v id x t, s.Step lib (.call v ⟨.db (.incrementRetryCount id), x⟩) t →
    ∃ r ∈ s.shared.db.event_logs, r.id = id ∧ ∃ n, r.retry_count = some n ∧ n + 1 ≤ i32Max
  /-- no row has been claimed more often -/
  claims : ∀ id, (ls.countP (Label.claims id) : Int) ≤ ceiling
  /-- a row at the ceiling is not claimed again, stays, and is left alone by all but
  the checker, which changes its status only -/
  rests : ∀ r ∈ s.shared.db.event_logs, r.retry_count = some ceiling →
    ∀ ls' t, (steady lib W ceiling).Run s ls' t → ls'.countP (Label.claims r.id) = 0 ∧
      (∃ status, { r with fcr_status := status } ∈ t.shared.db.event_logs) ∧
      ∀ v e u, v ≠ .fcr_checker → t.Step lib (.call v e) u → u.row? r.id = t.row? r.id
  /-- without new rows there are only so many claims -/
  total : ∀ ls' t, (steady lib W ceiling).Run s ls' t → (∀ l ∈ ls', l.addsRow = false) →
    (ls'.countP Label.claimsSome : Int) ≤ s.shared.db.event_logs.length * ceiling
  /-- and at some point the last one has been made -/
  quiet : ∀ p : (steady lib W ceiling).Path, p.state 0 = s →
    (∀ k, (p.label k).addsRow = false) → ∃ k, ∀ j, k ≤ j → (p.label j).claimsSome = false

theorem Config.retryCeiling_eq (cfg : Config) :
    cfg.retryCeiling = min (cfg.max_retry_count : Int) i32Max := by
  unfold retryCeiling
  split <;> omega

/-- **The retry ceiling.** In every run over an empty database, with any number of
restarts under one ceiling, counts and claims stay within it, a row that has come
to it rests, and with no new rows the queue comes to rest. -/
theorem retries_within_ceiling {cfg : Config} {w : W.State} {ls : List Label} {s : Sys W}
    (hrun : (steady lib W cfg.retryCeiling).Run (Sys.boot cfg Db.empty w) ls s) :
    RetriesWithin lib (min (cfg.max_retry_count : Int) i32Max) ls s := by
  rw [← cfg.retryCeiling_eq]
  obtain ⟨hs, hpaid⟩ := Sys.within_of_run hrun
  have hk := hs.owned.keyed
  have hpos := cfg.retryCeiling_pos
  have hcast : ((cfg.retryCeiling.toNat : Nat) : Int) = cfg.retryCeiling :=
    Int.toNat_of_nonneg (by omega)
  constructor
  · intro r hr
    obtain ⟨n, hn, h0, hle, -⟩ := hs.rows _ _ (hk.row?_of_mem hr)
    exact ⟨n, hn, h0, hle⟩
  · intro v id x t hstep
    obtain ⟨-, data, hhand, rfl⟩ := Sys.holder_of_statement hs.coherent rfl hstep
    obtain ⟨r, hr, hp⟩ := hs.owned.held_row (Sys.mem_held_of_inHand hhand)
    obtain ⟨n, hn, -, -, hlt⟩ := hs.rows _ _ hr
    have hbelow := hlt hp
    have hmax := cfg.retryCeiling_le
    exact ⟨r, Db.row?_mem hr, Db.row?_id hr, n, hn, by omega⟩
  · intro id
    have hle := hpaid.drawn id
    omega
  · intro r hr hceiling ls' t hrun'
    have hspent : s.Spent lib cfg.retryCeiling r :=
      ⟨hs, ⟨r.fcr_status, hk.row?_of_mem hr⟩, hceiling⟩
    obtain ⟨ht, hcount⟩ := hspent.run hrun'
    obtain ⟨status, hrow⟩ := ht.row
    refine ⟨hcount, ⟨status, Db.row?_mem hrow⟩, fun v e u hv hstep => ?_⟩
    rcases (ht.step hstep).2 with hsame | ⟨st, x, status', hl, -⟩
    · exact hsame
    · cases hl
      exact absurd rfl hv
  · intro ls' t hrun' hquiet
    have hle := hs.total hrun' hquiet
    calc (ls'.countP Label.claimsSome : Int)
        ≤ ((s.shared.db.event_logs.length * cfg.retryCeiling.toNat : Nat) : Int) := by
          exact_mod_cast hle
      _ = s.shared.db.event_logs.length * cfg.retryCeiling := by rw [Int.natCast_mul, hcast]
  · intro p hp hquiet
    subst hp
    refine p.eventually_not fun k => hs.total (p.run k) ?_
    intro l hl
    obtain ⟨j, -, rfl⟩ := List.mem_map.mp hl
    exact hquiet j

/-- A row that has been claimed once and released, because no contract can be
reached. -/
theorem retries_within_ceiling_released : ∃ (ls : List Label) (s : Sys World.any),
    (∃ r ∈ s.shared.db.event_logs, r.retry_count = some 1 ∧
      ls.countP (Label.claims r.id) = 1) ∧
    RetriesWithin Deployment.externals (min (Deployment.config.max_retry_count : Int) i32Max)
      ls s := by
  have hboot : (Sys.boot Deployment.config Db.empty () : Sys World.any).Resting :=
    Sys.resting_boot
  obtain ⟨ls, s, hrun, -, hp⟩ := Turn.exists_of_playGuarded
    (G := fun _ l _ => l.keepsCeiling Deployment.config.retryCeiling = true)
    [.index .ETHAmb (Deployment.lookups (.repeatByte 32 0xaa)),
      .process .msg_processor_1 (Deployment.lookups (.repeatByte 32 0xaa)),
      .send (Deployment.lookups (.repeatByte 32 0xaa))]
    (fun q => q.2.shared.db.event_logs.any fun r => r.retry_count == some 1 &&
      q.1.countP (Label.claims r.id) == 1)
    Turn.sound_any hboot
    (show (Turn.playGuarded Deployment.externals _ _ _).any _ = true by decide +kernel)
  simp only [List.any_eq_true, Bool.and_eq_true, beq_iff_eq] at hp
  obtain ⟨r, hr, hretry, hcount⟩ := hp
  exact ⟨ls, s, ⟨r, hr, hretry, hcount⟩, retries_within_ceiling hrun⟩

end BridgeValidator
