import BridgeValidator.AuditTrail

/-!
# Pending rows

A row inserted as pending waits for the checker, and the sender does not: it
deletes the row as soon as the relay is over. A row that is deleted while it is
pending is gone for the checker, whatever becomes of its block. If the sender took
up a row only after its verdict, every row would be there for the checker to decide.
-/

namespace BridgeValidator

open Interaction

variable {W : World} {lib : Externals} {cfg : Config}

/-! ## When a pending row may go -/

/-- No pass of the sender begins for a row that is still pending. -/
def Sys.sparesPending (s : Sys W) : Label → Bool
  | .start (.send data) =>
      (s.row? data.event_log_id).all fun r => r.fcr_status != some .pending
  | _ => true

/-- The system, with a sender that takes up rows only after their verdict. -/
def sparing (lib : Externals) (W : World) : Machine (Sys W) Label :=
  (system lib W).guarded fun s l _ => s.marksLocked l = true ∧ s.sparesPending l = true

/-- A row that has been pending and is gone has been confirmed, or has been reverted
and is on the audit trail. -/
def WindowsClosed (M : Machine (Sys W) Label) (s : Sys W) (ls : List Label) (t : Sys W) : Prop :=
  ∀ id, Had M s ls t id .pending → t.row? id = none → Had M s ls t id .confirmed ∨
    (Had M s ls t id .reverted ∧ id ∈ t.shared.db.trail)

section

variable {M M' : Machine (Sys W) Label} {s m t : Sys W} {l : Label} {ls ls' : List Label} {id : Int}
  {status : FcrStatus}

theorem Had.mono (h : Had M s ls t id status)
    (hM : ∀ {s ls t}, M.Run s ls t → M'.Run s ls t) : Had M' s ls t id status := by
  obtain ⟨ls₁, m, ls₂, r, rfl, h₁, h₂, hr, hstatus⟩ := h
  exact ⟨ls₁, m, ls₂, r, rfl, hM h₁, hM h₂, hr, hstatus⟩

theorem Had.prepend (h : Had M m ls' t id status) (hrun : M.Run s ls m) :
    Had M s (ls ++ ls') t id status := by
  obtain ⟨ls₁, m', ls₂, r, rfl, h₁, h₂, hr, hstatus⟩ := h
  exact ⟨ls ++ ls₁, m', ls₂, r, (List.append_assoc ..).symm, hrun.append h₁, h₂, hr, hstatus⟩

namespace Sys

/-- The row of the id has been drawn, and is not pending. -/
def NotPending (s : Sys W) (id : Int) : Prop :=
  id < s.shared.db.next_id ∧ ∀ r, s.row? id = some r → r.fcr_status ≠ some .pending

/-- No row becomes pending after it has been inserted. -/
theorem NotPending.step (h : s.NotPending id) (hk : s.shared.db.Keyed)
    (hstep : s.Step lib l t) : t.NotPending id := by
  refine ⟨h.1.trans_le (hstep.next_id_le hk), fun r' hr' => ?_⟩
  rcases hstep.rowMove hk id with hsame | ⟨v, st, x, rfl, -, hmove⟩
  · exact h.2 r' (hsame.symm.trans hr')
  · rw [hr'] at hmove
    generalize hafter : some r' = after at hmove
    cases hmove with
    | same => exact h.2 r' hafter.symm
    | claimed hr | staged hr | released hr =>
        obtain rfl := Option.some.inj hafter
        have hstatus := h.2 _ hr
        exact hstatus
    | inserted hnew => exact absurd hnew h.1.ne
    | deleted => cases hafter
    | confirmed _ _ | reverted _ _ =>
        obtain rfl := Option.some.inj hafter
        intro hpending
        cases hpending

/-- The sender works on no pending row. -/
structure Spared (lib : Externals) (s : Sys W) : Prop where
  coherent : s.Coherent lib
  owned : s.Owned
  inHand : ∀ r data, s.running .on_chain_sender = some r → r.job = .send data →
    s.NotPending data.event_log_id

theorem spared_boot {w : W.State} : (Sys.boot cfg Db.empty w).Spared lib where
  coherent := coherent_boot
  owned := owned_boot
  inHand := by
    intro r data hr
    cases hr

/-- A row in the channel is there, so a pass that is begun is begun for a row the checker is
done with. -/
theorem Spared.recv (h : s.Spared lib) {data : SenderData}
    (hstep : s.Step lib (.start (.send data)) t)
    (hspares : s.sparesPending (.start (.send data)) = true) :
    s.NotPending data.event_log_id := by
  cases hstep with
  | recv hidle hch =>
      have hwaiting : data.claim ∈ s.waiting := by simp [waiting, hch]
      obtain ⟨r, hr, -⟩ := h.owned.held_row (mem_held_of_waiting hwaiting)
      refine ⟨h.owned.keyed.lt_next_of_row? hr, fun r' hr' => ?_⟩
      simp only [sparesPending, hr', Option.all_some, bne_iff_ne] at hspares
      exact hspares

theorem Spared.step (h : s.Spared lib) (hstep : s.Step lib l t)
    (hspares : s.sparesPending l = true) : t.Spared lib := by
  refine ⟨h.coherent.step hstep, h.owned.step h.coherent hstep, fun r' data hr' hjob => ?_⟩
  have hkeyed := h.owned.keyed
  -- the round is as it was, or begins here, or has made a call
  rcases hstep.round hr' with hr | ⟨rfl, -, -⟩ | ⟨r, o, x, sh, hr, rfl, -, hsame, -⟩
  · exact (h.inHand r' data hr hjob).step hkeyed hstep
  · rw [hjob] at hstep hspares
    exact (h.recv hstep hspares).step hkeyed hstep
  · exact (h.inHand r data hr (hsame.symm.trans hjob)).step hkeyed hstep

/-- A pending row stays pending, or the checker comes to it: a DELETE is of the row the
sender has in hand. -/
theorem Spared.pending_row (h : s.Spared lib) (hstep : s.Step lib l t) {r : EventLog}
    (hr : s.row? id = some r) (hpending : r.fcr_status = some .pending) :
    ∃ r', t.row? id = some r' ∧ (r'.fcr_status = some .pending ∨
      r'.fcr_status = some .confirmed ∨ r'.fcr_status = some .reverted) := by
  rcases hstep.rowMove h.owned.keyed id with hsame | ⟨v, st, x, rfl, -, hmove⟩
  · exact ⟨r, hsame.trans hr, Or.inl hpending⟩
  · generalize hafter : t.row? id = after at hmove
    cases hmove with
    | same => exact ⟨r, hr, Or.inl hpending⟩
    | claimed hr' | staged hr' | released hr' =>
        obtain rfl := Option.some.inj (hr.symm.trans hr')
        exact ⟨_, rfl, Or.inl hpending⟩
    | inserted hnew => exact absurd hnew (h.owned.keyed.lt_next_of_row? hr).ne
    | deleted =>
        -- the sender deletes the row it has in hand, and that one is not pending
        cases hstep with
        | call hrun hrest _ =>
            obtain ⟨rfl, data, hjob, hown⟩ := h.coherent.sender_allows hrun hrest rfl
            obtain ⟨-, hid⟩ := hown
            subst hid
            exact absurd hpending ((h.inHand _ data hrun hjob).2 r hr)
    | confirmed _ _ => exact ⟨_, rfl, Or.inr (Or.inl rfl)⟩
    | reverted _ _ => exact ⟨_, rfl, Or.inr (Or.inr rfl)⟩

theorem Spared.run (h : s.Spared lib) (hrun : (sparing lib W).Run s ls t) : t.Spared lib :=
  hrun.invariant (fun _ _ _ hs hstep => hs.step hstep.1 hstep.2.2) h

/-- Along a run, a pending row is pending still, or has had a verdict. -/
theorem Spared.pending_row_of_run (h : s.Spared lib) (hrun : (sparing lib W).Run s ls t)
    {r : EventLog} (hr : s.row? id = some r) (hpending : r.fcr_status = some .pending) :
    (∃ r', t.row? id = some r' ∧ r'.fcr_status = some .pending) ∨
      Had (sparing lib W) s ls t id .confirmed ∨ Had (sparing lib W) s ls t id .reverted := by
  induction hrun with
  | nil => exact Or.inl ⟨r, hr, hpending⟩
  | @snoc ls m l u hrun hstep ih =>
      rcases ih with ⟨r', hr', hpending'⟩ | hverdict
      · obtain ⟨r'', hr'', hstatus⟩ := (h.run hrun).pending_row hstep.1 hr' hpending'
        rcases hstatus with hstatus | hstatus | hstatus
        · exact Or.inl ⟨r'', hr'', hstatus⟩
        · exact Or.inr (Or.inl (.now (hrun.snoc hstep) hr'' hstatus))
        · exact Or.inr (Or.inr (.now (hrun.snoc hstep) hr'' hstatus))
      · exact Or.inr (hverdict.imp (·.snoc hstep) (·.snoc hstep))

end Sys

end

/-- **The window is closed for every row that the sender takes up after its verdict.** In
every run in which no pass begins for a pending row, and no row of a block is inserted in
the middle of the transaction about that block, a row that was pending has been confirmed,
or has been reverted and recorded, before it is gone. -/
theorem windows_closed_of_sparing {w : W.State} {ls : List Label} {t : Sys W}
    (hrun : (sparing lib W).Run (Sys.boot cfg Db.empty w) ls t) :
    WindowsClosed (sparing lib W) (Sys.boot cfg Db.empty w) ls t := by
  have hmarking : ∀ {s : Sys W} {ls : List Label} {t : Sys W}, (sparing lib W).Run s ls t →
      (marking lib W).Run s ls t := fun h => h.guarded_mono fun _ _ _ hG => hG.1
  intro id hpending hgone
  obtain ⟨ls₁, m, ls₂, r, rfl, h₁, h₂, hr, hstatus⟩ := hpending
  have hm : m.Spared lib := Sys.spared_boot.run h₁
  rcases hm.pending_row_of_run h₂ hr hstatus with ⟨r', hr', -⟩ | hconfirmed | hreverted
  · rw [hgone] at hr'
    cases hr'
  · exact Or.inl (hconfirmed.prepend h₁)
  · have hhad := hreverted.prepend h₁
    exact Or.inr ⟨hhad, Sys.audited_boot.on_trail (hhad.mono hmarking)⟩

/-! ## A row that goes too early -/

/-- The checker confirms a row before it is relayed and deleted. -/
theorem windows_closed_of_sparing_confirmed :
    ∃ (t : Sys World.any) (ls : List Label),
      WindowsClosed (sparing Deployment.externals World.any)
        (Sys.boot Deployment.config Db.empty ()) ls t ∧
      Had (sparing Deployment.externals World.any) (Sys.boot Deployment.config Db.empty ()) ls t 1
        .pending ∧ t.row? 1 = none := by
  have hboot : (Sys.boot Deployment.config Db.empty () : Sys World.any).Resting :=
    Sys.resting_boot
  obtain ⟨ls₁, m, ls₂, t, hrun₁, hrun₂, hp⟩ := Turn.exists_of_playGuarded₂
    [.index .ETHAmb (Deployment.lookups (.repeatByte 32 0xaa))]
    [.check (Deployment.lookups (.repeatByte 32 0xaa)),
      .process .msg_processor_1 (Deployment.relay true), .send (Deployment.relay true)]
    (fun p q => (p.2.row? 1).any (fun r => r.fcr_status == some .pending) &&
      (q.2.row? 1).isNone)
    Turn.sound_any Turn.sound_any hboot
    (show (Turn.playGuarded Deployment.externals
      (fun s l _ => s.marksLocked l = true ∧ s.sparesPending l = true) _ _).any _ = true by
      decide +kernel)
  simp only [Bool.and_eq_true, Option.any_eq_true, beq_iff_eq, Option.isNone_iff_eq_none] at hp
  obtain ⟨⟨r, hr, hstatus⟩, hgone⟩ := hp
  exact ⟨t, ls₁ ++ ls₂, windows_closed_of_sparing (hrun₁.append hrun₂),
    ⟨ls₁, m, ls₂, r, rfl, hrun₁, hrun₂, hr, hstatus⟩, hgone⟩

/-- A statement that passes a verdict. -/
def Label.adjudicates : Label → Bool
  | .call _ ⟨.db (.markConfirmed ..), _⟩ => true
  | .call _ ⟨.db .commit, _⟩ => true
  | _ => false

/-- Without one no row has any. -/
theorem Had.unadjudicated {w : W.State} {ls : List Label} {t : Sys W} {id : Int}
    {status : FcrStatus} (h : Had (system lib W) (Sys.boot cfg Db.empty w) ls t id status)
    (hlabels : ∀ l ∈ ls, l.adjudicates = false) : status = .pending := by
  obtain ⟨ls₁, m, ls₂, r, rfl, hrun, -, hr, hstatus⟩ := h
  have hlabels₁ : ∀ l ∈ ls₁, l.adjudicates = false :=
    fun l hl => hlabels l (List.mem_append_left _ hl)
  have hall : m.Coherent lib ∧ m.shared.db.Keyed ∧ ∀ id r, m.row? id = some r →
      r.fcr_status = some .pending ∨ r.fcr_status = none := by
    clear hlabels hr
    induction hrun with
    | nil => exact ⟨Sys.coherent_boot, Db.keyed_empty, fun _ _ hr => by cases hr⟩
    | @snoc ls s l u _ hstep ih =>
        obtain ⟨hs, hk, hrows⟩ := ih fun l hl => hlabels₁ l (List.mem_append_left _ hl)
        have hlast := hlabels₁ l (List.mem_append_right _ (List.mem_singleton_self _))
        refine ⟨hs.step hstep, hstep.keyed hk, fun id r hr => ?_⟩
        have hstep' := hstep
        rcases Sys.Step.rowMove hk hstep' id with hsame | ⟨v, st, x, rfl, -, hmove⟩
        · exact hrows id r (hsame.symm.trans hr)
        · rw [hr] at hmove
          generalize hafter : some r = after at hmove
          cases hmove with
          | same => exact hrows id r hafter.symm
          | claimed hr' | staged hr' | released hr' =>
              obtain rfl := Option.some.inj hafter
              have hopen := hrows id _ hr'
              exact hopen
          | inserted hnew =>
              obtain rfl := Option.some.inj hafter
              cases hstep with
              | call hr' hrest hans => exact hs.inserts_open hr' hrest
          | deleted => cases hafter
          | confirmed _ _ | reverted _ _ => cases hlast
  rcases hall.2.2 id r hr with heq | heq
  · rw [heq] at hstatus
    exact (Option.some.inj hstatus).symm
  · rw [heq] at hstatus
    cases hstatus

/-- A safe block's event is relayed and its row deleted before the checker has looked
at it. -/
theorem pending_row_is_deleted :
    ¬ ∀ (lib : Externals) (W : World) (cfg : Config) (w : W.State) (ls : List Label) (t : Sys W),
      (system lib W).Run (Sys.boot cfg Db.empty w) ls t →
      WindowsClosed (system lib W) (Sys.boot cfg Db.empty w) ls t := by
  intro hclaim
  have hboot : (Sys.boot Deployment.config Db.empty () : Sys World.any).Resting :=
    Sys.resting_boot
  obtain ⟨ls₁, m, ls₂, t, hrun₁, hrun₂, hp⟩ := Turn.exists_of_playAll₂
    [.index .ETHAmb (Deployment.lookups (.repeatByte 32 0xaa))]
    [.process .msg_processor_1 (Deployment.relay true), .send (Deployment.relay true)]
    (fun p q => (p.2.row? 1).any (fun r => r.fcr_status == some .pending) &&
      (q.2.row? 1).isNone && (p.1 ++ q.1).all fun l => !l.adjudicates)
    Turn.sound_any Turn.sound_any hboot
    (show (Turn.playAll Deployment.externals _ _).any _ = true by decide +kernel)
  simp only [Bool.and_eq_true, Option.any_eq_true, beq_iff_eq, Option.isNone_iff_eq_none,
    List.all_eq_true, Bool.not_eq_eq_eq_not, Bool.not_true] at hp
  obtain ⟨⟨⟨r, hr, hstatus⟩, hgone⟩, hlabels⟩ := hp
  have hpending : Had (system Deployment.externals World.any)
      (Sys.boot Deployment.config Db.empty ()) (ls₁ ++ ls₂) t 1 .pending :=
    ⟨ls₁, m, ls₂, r, rfl, hrun₁, hrun₂, hr, hstatus⟩
  rcases hclaim _ _ _ _ _ t (hrun₁.append hrun₂) 1 hpending hgone with hhad | ⟨hhad, -⟩
  · cases hhad.unadjudicated hlabels
  · cases hhad.unadjudicated hlabels

end BridgeValidator
