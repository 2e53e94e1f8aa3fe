import BridgeValidator.Framework.Lease
import BridgeValidator.Orphans

/-!
# The ledger of a row

`event_logs` is a queue with leases: a claim takes a row out to the pipeline, a release gives
it back with one more try, a DELETE retires it, and a crash loses it. Each row lives the life
of such a job, whatever the interleaving, so its claims, releases and DELETEs balance.
-/

namespace BridgeValidator

open Interaction

variable {W : World} {lib : Externals}

/-- `increment_retry_count` has been executed for the row of `id`. -/
def Label.releases (id : Int) : Label → Bool
  | .call _ ⟨.db (.incrementRetryCount row), .ok ()⟩ => decide (row = id)
  | _ => false

/-- `delete_event_log` has been executed for the row of `id`. -/
def Label.deletes (id : Int) : Label → Bool
  | .call _ ⟨.db (.deleteEventLog row), .ok ()⟩ => decide (row = id)
  | _ => false

theorem Label.exclusive_of_claims {id : Int} {l : Label} (h : l.claims id = true) :
    l.releases id = false ∧ l.deletes id = false := by
  unfold claims at h
  split at h
  · exact ⟨rfl, rfl⟩
  · cases h

theorem Label.exclusive_of_releases {id : Int} {l : Label} (h : l.releases id = true) :
    l.deletes id = false := by
  unfold releases at h
  split at h
  · rfl
  · cases h

/-- What a step writes into the ledger of `id`. -/
structure Label.Books (id : Int) (l : Label) (o : Option Lease.Turn) : Prop where
  take : l.claims id = true ↔ o = some .take
  giveBack : l.releases id = true ↔ o = some .giveBack
  retire : l.deletes id = true ↔ o = some .retire

def EventLog.tries (r : EventLog) : Nat := (r.retry_count.getD 0).toNat

namespace Sys

variable {s t : Sys W} {l : Label} {ls : List Label} {id : Int}

/-- The row of `id` as a job that is leased. -/
def lease (s : Sys W) (id : Int) : Lease :=
  match s.row? id with
  | none => if s.shared.db.next_id ≤ id then .new else .done
  | some r =>
      if r.is_processed = some true then
        if id ∈ s.held then .held r.tries else .lost r.tries
      else .free r.tries

/-- Every row has a count, which is not negative. -/
def Counted (s : Sys W) : Prop :=
  ∀ id r, s.row? id = some r → ∃ n : Nat, r.retry_count = some (n : Int)

theorem Counted.step (h : s.Counted) (hs : s.Coherent lib) (hk : s.shared.db.Keyed)
    (hstep : s.Step lib l t) : t.Counted := by
  intro id r' hr'
  have hrow := hstep.rowStep hs hk id
  generalize hafter : t.row? id = after at hrow
  rw [hafter] at hr'
  subst hr'
  generalize hsome : some r' = after at hrow
  cases hrow with
  | same _ => exact h id r' hsome.symm
  | deleted => cases hsome
  | inserted _ =>
      obtain rfl := Option.some.inj hsome
      exact ⟨0, rfl⟩
  | claimed hr | staged hr | checked hr =>
      obtain rfl := Option.some.inj hsome
      have hold := h id _ hr
      exact hold
  | released hr =>
      obtain rfl := Option.some.inj hsome
      obtain ⟨n, hn⟩ := h id _ hr
      refine ⟨n + 1, ?_⟩
      simp [EventLog.released, hn]

/-! ## One step -/

theorem lease_of_free {r : EventLog} (hr : s.row? id = some r) (hp : r.is_processed ≠ some true) :
    s.lease id = .free r.tries := by
  simp only [lease, hr, if_neg hp]

theorem lease_of_held {r : EventLog} (hr : s.row? id = some r) (hp : r.is_processed = some true)
    (hheld : id ∈ s.held) : s.lease id = .held r.tries := by
  simp only [lease, hr, if_pos hp, if_pos hheld]

theorem lease_of_lost {r : EventLog} (hr : s.row? id = some r) (hp : r.is_processed = some true)
    (hheld : id ∉ s.held) : s.lease id = .lost r.tries := by
  simp only [lease, hr, if_pos hp, if_neg hheld]

theorem lease_of_none (hr : s.row? id = none) :
    s.lease id = if s.shared.db.next_id ≤ id then .new else .done := by
  simp only [lease, hr]

/-- A claim takes the row. -/
theorem Step.lease_claims (hs : s.Coherent lib) (hk : s.shared.db.Keyed)
    (h : s.Step lib l t) (hl : l.claims id = true) :
    (s.lease id).next .take = some (t.lease id) := by
  obtain ⟨v, max, r, rfl, hr, hclaimable, hafter⟩ := h.claims hk hl
  obtain ⟨⟨k, rfl⟩, -⟩ := ceiling_of_claim hs h
  have hfree : r.is_processed = some false := by
    simp only [EventLog.isClaimable, Bool.and_eq_true, beq_iff_eq] at hclaimable
    exact hclaimable.1
  have hheld : id ∈ t.held :=
    mem_held.mpr (Or.inl ⟨k, _, claimed_of_claim h, Db.row?_id hr⟩)
  rw [lease_of_free hr (by simp [hfree]), lease_of_held hafter rfl hheld]
  rfl

/-- A release gives it back. -/
theorem Step.lease_releases (hs : s.Coherent lib) (ho : s.Owned) (hc : s.Counted)
    (h : s.Step lib l t) (hl : l.releases id = true) :
    (s.lease id).next .giveBack = some (t.lease id) := by
  unfold Label.releases at hl
  split at hl
  · obtain rfl := of_decide_eq_true hl
    obtain ⟨-, data, hhand, rfl⟩ := holder_of_statement hs rfl h
    have hheld := mem_held_of_inHand hhand
    obtain ⟨r, hr, hp⟩ := ho.held_row hheld
    obtain ⟨n, hn⟩ := hc _ _ hr
    have hafter : t.row? data.event_log_id = some r.released := by
      cases h with
      | call _ _ hans =>
          cases hans with
          | db hans =>
              have heff := hans.rowEffect ho.keyed data.event_log_id
              rw [Stmt.RowEffect, if_pos rfl] at heff
              exact heff.trans (congrArg (Option.map EventLog.released) hr)
    rw [lease_of_held hr hp hheld, lease_of_free hafter (by simp [EventLog.released])]
    simp [Lease.next, EventLog.tries, EventLog.released, hn]
  · cases hl

/-- A DELETE retires it. -/
theorem Step.lease_deletes (hs : s.Coherent lib) (ho : s.Owned) (h : s.Step lib l t)
    (hl : l.deletes id = true) : (s.lease id).next .retire = some (t.lease id) := by
  unfold Label.deletes at hl
  split at hl
  · obtain rfl := of_decide_eq_true hl
    obtain ⟨-, data, hhand, rfl⟩ := holder_of_statement hs rfl h
    have hheld := mem_held_of_inHand hhand
    obtain ⟨r, hr, hp⟩ := ho.held_row hheld
    have hafter : t.row? data.event_log_id = none := by
      cases h with
      | call _ _ hans =>
          cases hans with
          | db hans => exact (hans.rowEffect ho.keyed data.event_log_id).trans (if_pos rfl)
    have hdrawn : ¬t.shared.db.next_id ≤ data.event_log_id := by
      have hlt := ho.keyed.lt_next_of_row? hr
      have hle := h.next_id_le ho.keyed
      omega
    rw [lease_of_held hr hp hheld, lease_of_none hafter, if_neg hdrawn]
    rfl
  · cases hl

/-- A row that is left as it is can only lose its holder. -/
theorem lease_of_agrees (hmove : Move s t) {r r' : EventLog} (hr : s.row? id = some r)
    (hr' : t.row? id = some r') (hp : r'.is_processed = r.is_processed)
    (hn : r'.retry_count = r.retry_count) :
    t.lease id = s.lease id ∨ (s.lease id).next .lose = some (t.lease id) := by
  have htries : r'.tries = r.tries := congrArg (fun n => (Option.getD n 0).toNat) hn
  by_cases hclaimed : r.is_processed = some true
  · by_cases hheld : id ∈ s.held
    · rw [lease_of_held hr hclaimed hheld]
      by_cases hheld' : id ∈ t.held
      · left
        rw [lease_of_held hr' (hp.trans hclaimed) hheld', htries]
      · right
        rw [lease_of_lost hr' (hp.trans hclaimed) hheld', htries]
        rfl
    · left
      have hheld' : id ∉ t.held := by
        intro hid
        rcases held_of_move hmove hid with hid | ⟨r₀, hr₀, hfree⟩
        · exact hheld hid
        · obtain rfl := Option.some.inj (hr.symm.trans hr₀)
          cases hfree.symm.trans hclaimed
      rw [lease_of_lost hr hclaimed hheld, lease_of_lost hr' (hp.trans hclaimed) hheld', htries]
  · left
    rw [lease_of_free hr hclaimed, lease_of_free hr' (fun h => hclaimed (hp.symm.trans h)), htries]

/-- Everything else adds the row, uses its id up, or takes the holder away. -/
theorem Step.lease_others (hs : s.Coherent lib) (hk : s.shared.db.Keyed) (h : s.Step lib l t)
    (hclaims : l.claims id = false) (hreleases : l.releases id = false)
    (hdeletes : l.deletes id = false) :
    t.lease id = s.lease id ∨ ∃ e, (e = .skip ∨ e = .add ∨ e = .lose) ∧
      (s.lease id).next e = some (t.lease id) := by
  have hagrees : ∀ r r', s.row? id = some r → t.row? id = some r' →
      r'.is_processed = r.is_processed → r'.retry_count = r.retry_count →
      t.lease id = s.lease id ∨ ∃ e, (e = .skip ∨ e = .add ∨ e = .lose) ∧
        (s.lease id).next e = some (t.lease id) := by
    intro r r' hr hr' hp hn
    rcases lease_of_agrees (h.move hs hk) hr hr' hp hn with heq | hlost
    · exact Or.inl heq
    · exact Or.inr ⟨.lose, Or.inr (Or.inr rfl), hlost⟩
  have hrow := h.rowStep hs hk id
  generalize hafter : t.row? id = after at hrow
  cases hrow with
  | same _ =>
      cases hr : s.row? id with
      | some r => exact hagrees r r hr (hafter.trans hr) rfl rfl
      | none =>
          rw [lease_of_none hr, lease_of_none (hafter.trans hr)]
          have hle := h.next_id_le hk
          by_cases hdrawn : t.shared.db.next_id ≤ id
          · left
            rw [if_pos hdrawn, if_pos (hle.trans hdrawn)]
          · rw [if_neg hdrawn]
            by_cases hnew : s.shared.db.next_id ≤ id
            · right
              rw [if_pos hnew]
              exact ⟨.skip, Or.inl rfl, rfl⟩
            · left
              rw [if_neg hnew]
  | inserted hid =>
      right
      refine ⟨.add, Or.inr (Or.inl rfl), ?_⟩
      have hfree : some false ≠ some true := by decide
      rw [lease_of_none (hk.row?_of_next_le hid.ge), if_pos hid.ge, lease_of_free hafter hfree]
      rfl
  | claimed hr _ =>
      have hid := Db.row?_id hr
      simp [Label.claims, EventLog.toRow, hid] at hclaims
  | staged hr | checked hr => exact hagrees _ _ hr hafter rfl rfl
  | released hr _ _ => simp [Label.releases] at hreleases
  | deleted _ _ => simp [Label.deletes] at hdeletes

/-- **One step, one entry at most.** -/
theorem Step.books (hs : s.Coherent lib) (ho : s.Owned) (hc : s.Counted) (h : s.Step lib l t)
    (id : Int) : ∃ o, l.Books id o ∧
      o.elim (t.lease id = s.lease id) fun e => (s.lease id).next e = some (t.lease id) := by
  cases hclaims : l.claims id with
  | true =>
      obtain ⟨hreleases, hdeletes⟩ := Label.exclusive_of_claims hclaims
      refine ⟨some .take, ⟨?_, ?_, ?_⟩, h.lease_claims hs ho.keyed hclaims⟩
      · simp [hclaims]
      · simp [hreleases]
      · simp [hdeletes]
  | false =>
      cases hreleases : l.releases id with
      | true =>
          have hdeletes := Label.exclusive_of_releases hreleases
          refine ⟨some .giveBack, ⟨?_, ?_, ?_⟩, h.lease_releases hs ho hc hreleases⟩
          · simp [hclaims]
          · simp [hreleases]
          · simp [hdeletes]
      | false =>
          cases hdeletes : l.deletes id with
          | true =>
              refine ⟨some .retire, ⟨?_, ?_, ?_⟩, h.lease_deletes hs ho hdeletes⟩
              · simp [hclaims]
              · simp [hreleases]
              · simp [hdeletes]
          | false =>
              rcases h.lease_others hs ho.keyed hclaims hreleases hdeletes with heq | ⟨e, he, hnext⟩
              · exact ⟨none, ⟨by simp [hclaims], by simp [hreleases], by simp [hdeletes]⟩, heq⟩
              · refine ⟨some e, ⟨?_, ?_, ?_⟩, hnext⟩
                · rcases he with rfl | rfl | rfl <;> simp [hclaims]
                · rcases he with rfl | rfl | rfl <;> simp [hreleases]
                · rcases he with rfl | rfl | rfl <;> simp [hdeletes]

end Sys

/-! ## Whole runs -/

/-- The books of the row of `id`, after the steps `ls`. -/
structure Sys.Reconciled (s : Sys W) (ls : List Label) (id : Int) : Prop where
  /-- the row has lived the life of a leased job, entry by entry -/
  life : 0 < id → ∃ es, Lease.machine.Run .new es (s.lease id) ∧
    es.count .take = ls.countP (Label.claims id) ∧
    es.count .giveBack = ls.countP (Label.releases id) ∧
    es.count .retire = ls.countP (Label.deletes id)
  /-- every claim has been released or retired, or is out -/
  claims : ls.countP (Label.claims id) =
    ls.countP (Label.releases id) + ls.countP (Label.deletes id) + s.processed id
  /-- `retry_count` counts the releases -/
  count : ∀ r, s.row? id = some r →
    r.retry_count = some (ls.countP (Label.releases id) : Int) ∧ ls.countP (Label.deletes id) = 0
  deletes : ls.countP (Label.deletes id) ≤ 1

theorem Sys.out_lease {s : Sys W} (id : Int) : (s.lease id).out = s.processed id := by
  unfold Sys.lease Sys.processed
  cases s.row? id with
  | none =>
      simp only [Option.elim]
      split <;> rfl
  | some r =>
      simp only [Option.elim]
      split
      · split <;> rfl
      · rfl

/-- **The books of every row balance**, in every run over an empty table, whatever the
interleaving, the answers and the restarts. -/
theorem books_balance {cfg : Config} {w : W.State} {ls : List Label} {s : Sys W}
    (hrun : (system lib W).Run (Sys.boot cfg Db.empty w) ls s) (id : Int) :
    s.Reconciled ls id := by
  have hboot : (Sys.boot cfg Db.empty w).lease id = if 1 ≤ id then .new else .done := rfl
  have hinv : ∀ s l t, (Sys.Coherent lib s ∧ s.Owned ∧ s.Counted) → (system lib W).step s l t →
      (Sys.Coherent lib t ∧ t.Owned ∧ t.Counted) ∧ ∃ o, l.Books id o ∧
        o.elim (t.lease id = s.lease id) fun e => Lease.machine.step (s.lease id) e (t.lease id) := by
    rintro s l t ⟨hs, ho, hc⟩ hstep
    exact ⟨⟨hs.step hstep, ho.step hs hstep, hc.step hs ho.keyed hstep⟩, hstep.books hs ho hc id⟩
  have hstart : Sys.Coherent lib (Sys.boot cfg Db.empty w) ∧ (Sys.boot cfg Db.empty w).Owned ∧
      (Sys.boot cfg Db.empty w).Counted :=
    ⟨Sys.coherent_boot, Sys.owned_boot, fun id r hr => by cases hr⟩
  obtain ⟨⟨-, -, hc⟩, os, hos, hlife⟩ := hrun.traces (N := Lease.machine)
    (f := fun s => s.lease id) (R := Label.Books id)
    (I := fun s => Sys.Coherent lib s ∧ s.Owned ∧ s.Counted) hstart hinv
  have htake := Machine.countP_of_matched hos fun l o h => h.take
  have hback := Machine.countP_of_matched hos fun l o h => h.giveBack
  have hretire := Machine.countP_of_matched hos fun l o h => h.retire
  have hledger : Lease.Ledger os.reduceOption (s.lease id) := by
    apply Lease.ledger_of_run _ hlife
    rw [hboot]
    split <;> rfl
  constructor
  · intro hid
    rw [hboot, if_pos (by omega)] at hlife
    exact ⟨_, hlife, htake.symm, hback.symm, hretire.symm⟩
  · rw [htake, hback, hretire, ← s.out_lease id]
    exact hledger.takes
  · intro r hr
    obtain ⟨n, hn⟩ := hc id r hr
    have htries : (s.lease id).tries = some n := by
      have hr' : r.tries = n := by simp [EventLog.tries, hn]
      rw [← hr']
      unfold Sys.lease
      rw [hr]
      simp only
      split
      · split <;> rfl
      · rfl
    obtain ⟨hn', hnone⟩ := hledger.tries n htries
    rw [hback, hretire, hn', hn]
    exact ⟨rfl, hnone⟩
  · rw [hretire]
    exact hledger.retires

/-- A row that has been claimed and released once. -/
theorem books_balance_released : ∃ (ls : List Label) (s : Sys World.any),
    (s.row? 1).isSome = true ∧ ls.countP (Label.releases 1) = 1 ∧ s.Reconciled ls 1 := by
  obtain ⟨ls, s, hrun, -, hp⟩ := Turn.exists_of_playAll
    [.index .ETHAmb (Deployment.lookups (.repeatByte 32 0xaa)),
      .process .msg_processor_1 (Deployment.lookups (.repeatByte 32 0xaa)),
      .send (Deployment.lookups (.repeatByte 32 0xaa))]
    (fun q => (q.2.row? 1).isSome && q.1.countP (Label.releases 1) == 1) Turn.sound_any
    (Sys.resting_boot : (Sys.boot Deployment.config Db.empty () : Sys World.any).Resting)
    (show (Turn.playAll Deployment.externals _ _).any _ = true by decide +kernel)
  rw [Bool.and_eq_true, beq_iff_eq] at hp
  exact ⟨ls, s, hp.1, hp.2, books_balance hrun 1⟩

end BridgeValidator
