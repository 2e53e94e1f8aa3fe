import BridgeValidator.RowSteps
import BridgeValidator.Rounds

/-!
# Reverted rows

The checker's verdict is final for as long as the row exists, and nothing
else reads it: `read_from_db` takes the row it would take whatever the
statuses are. What bounds the work still done on a reverted row is its retry
budget, which every claim pays for.
-/

namespace BridgeValidator

open Interaction

variable {W : World} {lib : Externals}

/-! ## The retry budget -/

/-- How often a row can still be claimed under this retry ceiling. -/
def EventLog.claimsLeft (ceiling : Int) (r : EventLog) : Nat :=
  r.retry_count.elim 0 fun n =>
    if r.is_processed = some false then (ceiling - n).toNat else (ceiling - n - 1).toNat

section

variable {ceiling : Int} {r r' : EventLog}

theorem EventLog.claimsLeft_claimed (h : r.isClaimable ceiling = true) :
    1 + r.claimed.claimsLeft ceiling = r.claimsLeft ceiling := by
  unfold isClaimable at h
  cases hn : r.retry_count with
  | none => simp [hn] at h
  | some n =>
      simp only [hn, Bool.and_eq_true, beq_iff_eq, decide_eq_true_eq] at h
      simp only [claimsLeft, EventLog.claimed, hn, h.1, Option.elim]
      simp only [if_true, if_false, Option.some.injEq, Bool.true_eq_false]
      omega

theorem EventLog.claimsLeft_released : r.released.claimsLeft ceiling ≤ r.claimsLeft ceiling := by
  cases hn : r.retry_count with
  | none => simp [claimsLeft, hn]
  | some n =>
      simp only [claimsLeft, EventLog.released, hn, Option.map_some, Option.elim, if_true]
      split <;> omega

end

/-- How often the row can still be claimed; a row that is gone never. -/
def claimsLeft (ceiling : Int) (row : Option EventLog) : Nat :=
  row.elim 0 (EventLog.claimsLeft ceiling)

/-- The row, if it is still there, is marked as reverted. -/
def StaysReverted (row : Option EventLog) : Prop :=
  ∀ r, row = some r → r.fcr_status = some .reverted

namespace Sys

variable {s t : Sys W} {l : Label} {ceiling id : Int} {after : Option EventLog}

/-- Every claim is paid for out of the budget, and nothing refills it. -/
theorem RowStep.claimsLeft_le (h : s.RowStep id l after) (hid : id < s.shared.db.next_id)
    (hceiling : s.config.retryCeiling = ceiling) :
    (if l.claims id then 1 else 0) + claimsLeft ceiling after ≤
      claimsLeft ceiling (s.row? id) := by
  cases h with
  | same hfree => simp [hfree]
  | inserted hnew => exact absurd hnew hid.ne
  | @claimed k r hr hclaimable =>
      rw [hceiling] at hclaimable
      have hrow : r.id = id := Db.row?_id hr
      simpa [Label.claims, EventLog.toRow, hrow, hr, claimsLeft] using
        (EventLog.claimsLeft_claimed hclaimable).le
  | released hr =>
      rw [hr]
      simpa [Label.claims, claimsLeft] using EventLog.claimsLeft_released
  | deleted => exact Nat.zero_le _
  | staged hr =>
      rw [hr]
      exact (Nat.zero_add _).le
  | @checked st x status r hr hst =>
      have hfree : (Label.call .fcr_checker ⟨.db st, x⟩).claims id = false := by
        cases st <;> first | rfl | cases hst
      rw [hr, hfree]
      exact (Nat.zero_add _).le

/-- No step takes the verdict back. -/
theorem RowStep.staysReverted (h : s.RowStep id l after) (hid : id < s.shared.db.next_id)
    (hrev : StaysReverted (s.row? id)) : StaysReverted after := by
  intro r' hr'
  cases h with
  | same _ => exact hrev r' hr'
  | inserted hnew => exact absurd hnew hid.ne
  | deleted => cases hr'
  | claimed hr _ | staged hr _ _ | released hr _ _ =>
      obtain rfl := Option.some.inj hr'
      have hold := hrev _ hr
      exact hold
  | checked hr hst hstatus =>
      obtain rfl := Option.some.inj hr'
      rcases hstatus with rfl | hpending
      · rfl
      · cases hpending.symm.trans (hrev _ hr)

/-! ## Over runs -/

/-- A row whose verdict is in: its id is in use for good, and it stays reverted. -/
structure Verdict (lib : Externals) (ceiling : Int) (id : Int) (s : Sys W) : Prop where
  coherent : s.Coherent lib
  keyed : s.shared.db.Keyed
  used : id < s.shared.db.next_id
  reverted : StaysReverted (s.row? id)
  ceiling_eq : s.config.retryCeiling = ceiling

theorem Verdict.step {ceiling id : Int} (h : s.Verdict lib ceiling id) (hstep : s.Step lib l t)
    (hl : l.isRestart = false) :
    t.Verdict lib ceiling id ∧
      (if l.claims id then 1 else 0) + claimsLeft ceiling (t.row? id) ≤
        claimsLeft ceiling (s.row? id) := by
  have hcfg := hstep.config_eq hl
  have hcoh := h.coherent.step hstep
  have hk := hstep.keyed h.keyed
  have hrow := hstep.rowStep h.coherent h.keyed id
  exact ⟨⟨hcoh, hk, lt_of_lt_of_le h.used (hstep.next_id_le h.keyed),
    hrow.staysReverted h.used h.reverted, hcfg ▸ h.ceiling_eq⟩,
    hrow.claimsLeft_le h.used h.ceiling_eq⟩

end Sys

/-- The row `read_from_db` takes does not depend on any `fcr_status`. -/
theorem Db.claim_ignores_fcr_status (db : Db) (status : EventLog → Option FcrStatus)
    (skip : Int → Bool) (max : Int) :
    (({ db with event_logs := db.event_logs.map fun r =>
        { r with fcr_status := status r } } : Db).claim skip max).1 = (db.claim skip max).1 := by
  have hcandidate : ({ db with event_logs := db.event_logs.map fun r =>
      { r with fcr_status := status r } } : Db).claimCandidate skip max =
      (db.claimCandidate skip max).map fun r => { r with fcr_status := status r } := by
    unfold claimCandidate
    rw [List.filter_map, ← List.map_insertionSort claimLE, List.head?_map]
    · rfl
    · intro a _ b _
      rfl
  unfold claim
  rw [hcandidate]
  cases db.claimCandidate skip max <;> rfl

/-- **A reverted row is not treated specially.** The verdict lasts, the choice
of the claimed row does not look at it, and what is still done about the row is
bounded by the retries it has left. -/
theorem reverted_row_spends_its_retries {s t : Sys W} {ls : List Label} {r : EventLog}
    (h : (system lib W).Reachable s) (hr : r ∈ s.shared.db.event_logs)
    (hrev : r.fcr_status = some .reverted) (hrun : (uninterrupted lib W).Run s ls t) :
    (∀ r' ∈ t.shared.db.event_logs, r'.id = r.id → r'.fcr_status = some .reverted) ∧
    ls.countP (Label.claims r.id) ≤ r.claimsLeft s.config.retryCeiling ∧
    ∀ (status : EventLog → Option FcrStatus) (skip : Int → Bool) (max : Int),
      (({ t.shared.db with event_logs := t.shared.db.event_logs.map fun r =>
        { r with fcr_status := status r } } : Db).claim skip max).1 =
      (t.shared.db.claim skip max).1 := by
  have hk := (owned_of_reachable h).keyed
  have hrow : s.row? r.id = some r := hk.row?_of_mem hr
  have hs : s.Verdict lib s.config.retryCeiling r.id :=
    ⟨coherent_of_reachable h, hk, hk.lt_next r hr,
      fun r' hr' => Option.some.inj (hrow.symm.trans hr') ▸ hrev, rfl⟩
  have hstep : ∀ s' l t', s'.Verdict lib s.config.retryCeiling r.id →
      (uninterrupted lib W).step s' l t' → t'.Verdict lib s.config.retryCeiling r.id ∧
        (if Label.claims r.id l then 1 else 0) + claimsLeft s.config.retryCeiling (t'.row? r.id) ≤
          claimsLeft s.config.retryCeiling (s'.row? r.id) :=
    fun s' l t' hs' hl => hs'.step hl.1 hl.2
  obtain ⟨ht, hle⟩ := hrun.countP_budget hs hstep
  refine ⟨fun r' hr' hid => ht.reverted r' (hid ▸ ht.keyed.row?_of_mem hr'), ?_,
    t.shared.db.claim_ignores_fcr_status⟩
  rw [hrow] at hle
  exact le_trans (Nat.le_add_right _ _) hle

/-! ## A reverted row is claimed -/

/-- The checker reverts a row before it is first claimed. -/
theorem exists_reverted_then_claimed :
    ∃ (s t : Sys World.any) (ls : List Label) (r : EventLog),
      (system Deployment.externals World.any).Reachable s ∧ r ∈ s.shared.db.event_logs ∧
      r.fcr_status = some .reverted ∧ (system Deployment.externals World.any).Run s ls t ∧
      (∀ l ∈ ls, l.isRestart = false) ∧ ls.countP (Label.claims r.id) = 1 := by
  have hboot : (Sys.boot Deployment.config Db.empty () : Sys World.any).Resting :=
    Sys.resting_boot
  obtain ⟨ls₁, s, ls, t, hrun₁, hrun, hp⟩ := Turn.exists_of_playAll₂
    [.index .ETHAmb (Deployment.lookups (.repeatByte 32 0xbb)),
      .check (Deployment.lookups (.repeatByte 32 0xbb))]
    [.process .msg_processor_1 (Deployment.lookups (.repeatByte 32 0xbb))]
    (fun m q => m.2.shared.db.event_logs.any fun r => r.fcr_status == some .reverted &&
      q.1.all (fun l => !l.isRestart) && q.1.countP (Label.claims r.id) == 1)
    Turn.sound_any Turn.sound_any hboot
    (show (Turn.playAll Deployment.externals _ _).any _ = true by decide +kernel)
  simp only [List.any_eq_true, Bool.and_eq_true, beq_iff_eq, List.all_eq_true,
    Bool.not_eq_eq_eq_not, Bool.not_true] at hp
  obtain ⟨r, hr, ⟨hrev, hlabels⟩, hcount⟩ := hp
  exact ⟨s, t, ls, r, ⟨_, ls₁, ⟨Deployment.config, (), trivial, rfl⟩, hrun₁⟩, hr, hrev, hrun,
    hlabels, hcount⟩

/-- In that history the row is claimed once and stays reverted. -/
theorem reverted_row_spends_its_retries_after_reorg :
    ∃ (s t : Sys World.any) (ls : List Label) (r : EventLog),
      r.fcr_status = some .reverted ∧ ls.countP (Label.claims r.id) = 1 ∧
      (∀ r' ∈ t.shared.db.event_logs, r'.id = r.id → r'.fcr_status = some .reverted) ∧
      ls.countP (Label.claims r.id) ≤ r.claimsLeft s.config.retryCeiling := by
  obtain ⟨s, t, ls, r, hs, hr, hrev, hrun, hlabels, hcount⟩ := exists_reverted_then_claimed
  have hspent := reverted_row_spends_its_retries hs hr hrev (hrun.guarded_of_labels hlabels)
  exact ⟨s, t, ls, r, hrev, hcount, hspent.1, hspent.2.1⟩

/-- So it is not true that a reverted row is never claimed. -/
theorem reverted_row_is_claimed :
    ¬ ∀ (lib : Externals) (W : World) (s t : Sys W) (ls : List Label) (r : EventLog),
      (system lib W).Reachable s → r ∈ s.shared.db.event_logs →
      r.fcr_status = some .reverted → (system lib W).Run s ls t →
      ls.countP (Label.claims r.id) = 0 := by
  intro hclaim
  obtain ⟨s, t, ls, r, hs, hr, hrev, hrun, -, hcount⟩ := exists_reverted_then_claimed
  have := hclaim _ _ s t ls r hs hr hrev hrun
  omega

end BridgeValidator
