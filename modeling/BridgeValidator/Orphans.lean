import BridgeValidator.ProcessorOutcomes
import BridgeValidator.Progress
import BridgeValidator.SenderOutcomes
import BridgeValidator.StageResumption

/-!
# Claimed rows that nobody works on

Nothing in the program looks for rows that were claimed and then dropped: the claim
query wants `is_processed = 'false'`, and only the holder of a row sets it back. So a
claimed row that has lost its holder stays as it is for ever, through restarts too.

In the other direction: processes that are stopped by the signal, and meet with no
failure of the database, of the channel or of a decoder, lose no row.
-/

namespace BridgeValidator

open Interaction

variable {W : World} {lib : Externals}

/-! ## Without a holder -/

theorem EventLog.Agrees.trans {r r' r'' : EventLog} (h : r.Agrees r') (h' : r'.Agrees r'') :
    r.Agrees r'' := by
  constructor
  · exact h'.bridge_mode.trans h.bridge_mode
  · exact h'.is_processed.trans h.is_processed
  · exact h'.retry_count.trans h.retry_count
  · exact h'.stage.trans h.stage

/-- The step claims the row, hands it over, begins a pass over it, sends a transaction
for it, or writes to it by its id. -/
def Label.concerns (id : Int) : Label → Bool
  | .start (.send data) => decide (data.event_log_id = id)
  | .call _ ⟨.channelSend data, _⟩ => decide (data.event_log_id = id)
  | .call _ ⟨.rpc (.send row ..), _⟩ => decide (row = id)
  | .call _ ⟨.db (.claim _), .ok (some row)⟩ => decide (row.id = id)
  | .call _ ⟨.db st, _⟩ => decide (st.writesTo = some id)
  | _ => false

namespace Sys

/-- The row is claimed, and neither held by anybody nor the one the sender is busy with. -/
structure Orphaned (s : Sys W) (id : Int) : Prop where
  claimed : ∃ r, s.row? id = some r ∧ r.is_processed = some true
  unheld : id ∉ s.held
  left : s.passOver id = none

variable {s t : Sys W} {l : Label} {ls : List Label} {id : Int} {r : EventLog}

theorem mem_held : id ∈ s.held ↔ (∃ k row, s.claimed k = some row ∧ row.id = id) ∨
    (∃ data ∈ s.shared.channel, data.event_log_id = id) ∨
      ∃ data, s.inHand = some data ∧ data.event_log_id = id := by
  have helim : ∀ {α : Type} (o : Option α) (f : α → Int),
      id ∈ o.elim (0 : Multiset Int) (fun a => {f a}) ↔ ∃ a, o = some a ∧ f a = id := by
    intro α o f
    cases o <;> simp [eq_comm]
  have hclaimed : ∀ k, id ∈ Multiset.map Claim.id ((s.claimed k).elim 0 fun row => {row.claim}) ↔
      ∃ row, s.claimed k = some row ∧ row.id = id := by
    intro k
    cases s.claimed k <;> simp [EventLogRow.claim, eq_comm]
  simp only [held, waiting, Multiset.map_add, Multiset.mem_add, hclaimed, helim]
  constructor
  · rintro (((h | h) | h) | h)
    · exact Or.inl ⟨_, h⟩
    · exact Or.inl ⟨_, h⟩
    · refine Or.inr (Or.inl ?_)
      simpa [SenderData.claim] using h
    · exact Or.inr (Or.inr h)
  · rintro (⟨k, h⟩ | h | h)
    · cases k with
      | msg_processor_1 => exact Or.inl (Or.inl (Or.inl h))
      | msg_processor_2 => exact Or.inl (Or.inl (Or.inr h))
    · refine Or.inl (Or.inr ?_)
      simpa [SenderData.claim] using h
    · exact Or.inr h

/-- Only a row that was free gets a holder. -/
theorem held_of_move (h : Move s t) (hid : id ∈ t.held) :
    id ∈ s.held ∨ ∃ r, s.row? id = some r ∧ r.is_processed = some false := by
  cases h with
  | quiet hw hh hrow =>
      left
      rcases Multiset.mem_add.mp hid with hid | hid
      · exact Multiset.mem_add.mpr (Or.inl (Multiset.mem_of_le (Multiset.map_le_map hw) hid))
      · rcases hh with hh | hh <;> rw [hh] at hid
        · exact Multiset.mem_add.mpr (Or.inr hid)
        · cases Multiset.notMem_zero _ hid
  | @claim row r hw hh hr hrow hfree hr' hother =>
      have hheld : t.held = row.id ::ₘ s.held := by simp [held, hw, hh, EventLogRow.claim]
      rw [hheld] at hid
      rcases Multiset.mem_cons.mp hid with rfl | hid
      · exact Or.inr ⟨r, hr, hfree⟩
      · exact Or.inl hid
  | handOver hw hw' hd hh hrow =>
      left
      simpa [held, hw, hw', hh, EventLogRow.claim, SenderData.claim, hd.id] using hid
  | recv hw hh hh' hrow =>
      left
      simpa [held, hw, hh, hh', SenderData.claim, or_comm] using hid
  | stage hw hh hh' hrow hother =>
      left
      simpa [held, hw, hh, hh'] using hid
  | settle hw hh hh' hrow hother =>
      left
      rw [held, hw, hh', Option.elim, add_zero] at hid
      exact Multiset.mem_add.mpr (Or.inl hid)

/-- Whatever a step does to a row, its holder does, or a processor for which it was free. -/
theorem Orphaned.not_concerns (h : s.Orphaned id) (hs : s.Coherent lib) (hk : s.shared.db.Keyed)
    (hstep : s.Step lib l t) : l.concerns id = false := by
  obtain ⟨r, hr, hp⟩ := h.claimed
  by_contra hl
  rw [Bool.not_eq_false] at hl
  cases hstep with
  | @recv data rest hidle hch =>
      apply h.unheld
      exact mem_held.mpr (Or.inr (Or.inl ⟨data, by simp [hch], of_decide_eq_true hl⟩))
  | @call v r' o k x sh hr' hrest hans =>
      have hstep : s.Step lib (.call v ⟨o, x⟩) (s.advance v r' ⟨o, x⟩ (k x) sh) :=
        .call hr' hrest hans
      cases o with
      | channelSend data =>
          obtain ⟨j, rfl, hjob⟩ := hs.processor_of_channelSend hr' hrest
          have hallow := hs.running_allows hr' hrest
          rw [Running.Allows, hjob] at hallow
          obtain ⟨row, hrow, hd⟩ := hallow
          apply h.unheld
          refine mem_held.mpr (Or.inl ⟨j, row, ?_, hd.id.symm.trans (of_decide_eq_true hl)⟩)
          simpa [Sys.claimed, hr', Running.claimed] using hrow
      | rpc rq =>
          cases rq with
          | send row sender call =>
              obtain ⟨-, r₀, data, hr₀, hjob, hrow⟩ := sender_of_send hs hstep
              have hpass := passOver_iff.mpr ⟨hr₀, hjob, hrow.trans (of_decide_eq_true hl)⟩
              rw [h.left] at hpass
              cases hpass
          | _ => cases hl
      | db st =>
          by_cases hclaim : (Label.call v ⟨.db st, x⟩).claims id = true
          · obtain ⟨v', max, r₀, -, hr₀, hclaimable, -⟩ := hstep.claims hk hclaim
            obtain rfl := Option.some.inj (hr.symm.trans hr₀)
            simp [EventLog.isClaimable, hp] at hclaimable
          · have hwrites : st.writesTo = some id := by
              cases st with
              | claim max =>
                  rcases x with e | (_ | row)
                  · exact of_decide_eq_true hl
                  · exact of_decide_eq_true hl
                  · exact absurd hl hclaim
              | _ => exact of_decide_eq_true hl
            obtain ⟨-, data, hhand, hid⟩ := holder_of_statement hs hwrites hstep
            exact h.unheld (mem_held.mpr (Or.inr (Or.inr ⟨data, hhand, hid⟩)))
  | _ => cases hl

theorem Orphaned.step (h : s.Orphaned id) (hs : s.Coherent lib) (hk : s.shared.db.Keyed)
    (hstep : s.Step lib l t) (hr : s.row? id = some r) :
    t.Orphaned id ∧ ∃ r', t.row? id = some r' ∧ r.Agrees r' := by
  obtain ⟨r₀, hr₀, hp⟩ := h.claimed
  obtain rfl := Option.some.inj (hr.symm.trans hr₀)
  have hquiet := h.not_concerns hs hk hstep
  have hnothand : ∀ data, s.inHand = some data → data.event_log_id ≠ id :=
    fun data hhand hid => h.unheld (mem_held.mpr (Or.inr (Or.inr ⟨data, hhand, hid⟩)))
  have hkept : ∃ r', t.row? id = some r' ∧ r.Agrees r' := by
    have hrow := hstep.rowStep hs hk id
    generalize t.row? id = after at hrow
    cases hrow with
    | same hfree => exact ⟨r, hr, rfl, rfl, rfl, rfl⟩
    | inserted hid =>
        have hlt := hk.lt_next_of_row? hr
        omega
    | claimed hr' hclaimable =>
        have hclaims := decide_eq_true (Db.row?_id hr')
        exact Bool.noConfusion (hquiet.symm.trans hclaims)
    | staged hr' hhand hid => exact absurd hid (hnothand _ hhand)
    | released hr' hhand hid => exact absurd hid (hnothand _ hhand)
    | deleted hhand hid => exact absurd hid (hnothand _ hhand)
    | checked hr' hst hstatus =>
        obtain rfl := Option.some.inj (hr.symm.trans hr')
        exact ⟨_, rfl, rfl, rfl, rfl, rfl⟩
  refine ⟨⟨?_, fun hid => ?_, ?_⟩, hkept⟩
  · obtain ⟨r', hr', hagrees⟩ := hkept
    exact ⟨r', hr', hagrees.is_processed.trans hp⟩
  · rcases held_of_move (hstep.move hs hk) hid with hid | ⟨r', hr', hfree⟩
    · exact h.unheld hid
    · obtain rfl := Option.some.inj (hr.symm.trans hr')
      rw [hp] at hfree
      cases hfree
  · cases hpass : t.passOver id with
    | none => rfl
    | some q =>
        obtain ⟨r', data⟩ := q
        rcases passOver_step hstep hpass with ⟨hbefore, -⟩ | ⟨-, hwait, -⟩ | ⟨r₀, o, x, hbefore, -⟩
        · rw [h.left] at hbefore
          cases hbefore
        · obtain ⟨-, -, hid⟩ := passOver_iff.mp hpass
          exact absurd (hid ▸ mem_held_of_waiting hwait) h.unheld
        · rw [h.left] at hbefore
          cases hbefore

/-- Who was at work on a row is gone with the process. -/
theorem orphaned_of_ends (hstep : s.Step lib l t) (hl : l.ends = true)
    (hr : s.row? id = some r) (hp : r.is_processed = some true) :
    t.Orphaned id ∧ t.row? id = some r := by
  have hrow : ∀ t : Sys W, (∀ v, t.running v = none) → t.shared.channel = [] →
      t.row? id = some r → t.Orphaned id ∧ t.row? id = some r := by
    intro t hrunning hch hr'
    refine ⟨⟨⟨r, hr', hp⟩, fun hid => ?_, by rw [passOver, hrunning]⟩, hr'⟩
    rcases mem_held.mp hid with ⟨k, row, hrow, -⟩ | ⟨data, hdata, -⟩ | ⟨data, hdata, -⟩
    · simp [Sys.claimed, hrunning] at hrow
    · rw [hch] at hdata
      cases hdata
    · simp [inHand, hrunning] at hdata
  cases hstep with
  | panic hr' hrest => exact hrow _ (fun _ => rfl) rfl hr
  | restart => exact hrow _ (fun _ => rfl) rfl hr
  | _ => cases hl

/-- What one step preserves, over a run. -/
theorem Orphaned.run (h : s.Orphaned id) (hs : (system lib W).Reachable s)
    (hr : s.row? id = some r) (hrun : (system lib W).Run s ls t) :
    t.Orphaned id ∧ (∃ r', t.row? id = some r' ∧ r.Agrees r') ∧
      ∀ l ∈ ls, l.concerns id = false := by
  induction hrun with
  | nil => exact ⟨h, ⟨r, hr, rfl, rfl, rfl, rfl⟩, List.forall_mem_nil _⟩
  | @snoc ls t l u hrun hstep ih =>
      obtain ⟨horphan, ⟨r', hr', hagrees⟩, hls⟩ := ih
      have ht := hrun.reachable hs
      have hcoherent := coherent_of_reachable ht
      have hk := (owned_of_reachable ht).keyed
      obtain ⟨horphan', r'', hr'', hagrees'⟩ := horphan.step hcoherent hk hstep hr'
      refine ⟨horphan', ⟨r'', hr'', hagrees.trans hagrees'⟩, fun l' hl' => ?_⟩
      rcases List.mem_append.mp hl' with hl' | hl'
      · exact hls l' hl'
      · rw [List.mem_singleton.mp hl']
        exact horphan.not_concerns hcoherent hk hstep

end Sys

/-- **A claimed row without a holder is dead.** From the moment on at which nobody holds a
claimed row, in whatever way the process goes on and is started anew, no step claims the
row, hands it over, begins a pass over it, sends for it or writes to it by its id; it
keeps its claim, its retries and its stage. -/
theorem orphaned_row_is_dead {s t : Sys W} {ls : List Label} {id : Int} {r : EventLog}
    (h : (system lib W).Reachable s) (hid : s.Orphaned id) (hr : s.row? id = some r)
    (hrun : (system lib W).Run s ls t) :
    t.Orphaned id ∧ (∃ r', t.row? id = some r' ∧ r.Agrees r') ∧
      ∀ l ∈ ls, l.concerns id = false :=
  hid.run h hr hrun

/-- A poll that finds nothing to claim. -/
def Label.claimsNone : Label → Bool
  | .call (.processor _) ⟨.db (.claim _), .ok none⟩ => true
  | _ => false

/-- The process is started anew with a message in the channel, and polls. -/
theorem orphaned_row_is_dead_restarted :
    ∃ (s t : Sys World.any) (ls : List Label),
      (system Deployment.externals World.any).Run s ls t ∧
      (∃ l ∈ ls, l.claimsNone = true) ∧ (∀ v, t.running v = none) ∧ s.Orphaned 1 ∧
        t.Orphaned 1 ∧ ∀ l ∈ ls, l.concerns 1 = false := by
  let again (s : Sys World.any) : Sys World.any :=
    Sys.boot Deployment.config { s.shared.db with tx := none } s.shared.world
  obtain ⟨ls, s, hrun, -, hp⟩ := Turn.exists_of_playAll
    [.index .ETHAmb (Deployment.lookups (.repeatByte 32 0xaa)),
      .process .msg_processor_1 (Deployment.lookups (.repeatByte 32 0xaa))]
    (fun q => (q.2.row? 1).any (fun r => r.is_processed == some true) &&
      (Turn.playAll Deployment.externals (again q.2)
        [.process .msg_processor_1 (Deployment.lookups (.repeatByte 32 0xaa))]).any
        fun p => p.1.any Label.claimsNone)
    Turn.sound_any
    (Sys.resting_boot : (Sys.boot Deployment.config Db.empty () : Sys World.any).Resting)
    (show (Turn.playAll Deployment.externals _ _).any _ = true by decide +kernel)
  rw [Bool.and_eq_true] at hp
  obtain ⟨hp, hpoll⟩ := hp
  simp only [Option.any_eq_true, beq_iff_eq] at hp
  obtain ⟨r, hr, hclaimed⟩ := hp
  obtain ⟨ls', t, hrun', ht, hnone⟩ := Turn.exists_of_playAll _ _ Turn.sound_any
    (Sys.resting_boot : (again s).Resting) hpoll
  have hreach : (system Deployment.externals World.any).Reachable s :=
    ⟨_, ls, ⟨Deployment.config, (), trivial, rfl⟩, hrun⟩
  have hrestart : (system Deployment.externals World.any).step s
      (.restart Deployment.config) (again s) := .restart
  obtain ⟨horphan, hr'⟩ := Sys.orphaned_of_ends hrestart rfl hr hclaimed
  obtain ⟨horphan', -, hls⟩ := orphaned_row_is_dead (hreach.step hrestart) horphan hr' hrun'
  exact ⟨_, t, ls', hrun', List.any_eq_true.mp hnone, ht.running, horphan, horphan', hls⟩

/-! ## With a holder to the end -/

namespace OnChainSender

/-- The statement is executed, and a threshold is one whose blob length can be computed. -/
def Served (lib : Externals) (o : Op) (x : o.Ans) : Prop :=
  DbSucceeds o x ∧ ∀ required, requiredAnswer ⟨o, x⟩ = some required → LengthFits lib required

/-- A statement that settles the row, when it is executed. -/
theorem after_of_settles {id : Int} {tr : Trace Calls} (hdb : ∀ e ∈ tr, DbSucceeds e.op e.ans)
    (h : tr.countP (settles id) ≠ 0) : (protocol id).after false tr = true := by
  have hmono : ∀ (tr : Trace Calls), (protocol id).after true tr = true := by
    intro tr
    induction tr with
    | nil => rfl
    | cons e tr ih =>
        have hnext : (protocol id).next true e.op e.ans = true := by
          show settledAfter true e.op e.ans = true
          unfold settledAfter
          split <;> rfl
        rw [Protocol.after_cons, hnext]
        exact ih
  generalize false = settled
  induction tr generalizing settled with
  | nil => exact absurd rfl h
  | cons e tr ih =>
      rw [Protocol.after_cons]
      by_cases he : settles id e = true
      · have hnext : (protocol id).next settled e.op e.ans = true := by
          have hok := hdb e (List.mem_cons_self ..)
          unfold settles at he
          split at he
          · rename_i x
            cases x with
            | error _ => exact hok.elim
            | ok a => rfl
          · rename_i x
            cases x with
            | error _ => exact hok.elim
            | ok a => rfl
          · cases he
        rw [hnext]
        exact hmono tr
      · rw [List.countP_cons_of_neg he] at h
        exact ih (fun e' he' => hdb e' (List.mem_cons_of_mem _ he')) h _

theorem executeOnForeignFlag_eq {cfg : Config} {msg : OnChainCallData} :
    executeOnForeignFlag cfg msg = executeOnForeignFlagOf cfg msg.bridgeMode := by
  cases msg <;> rfl

/-- A pass over a message that returns has settled its row, if all went well. -/
theorem settled_of_served {cfg : Config} {data : SenderData} {tr : Trace Calls}
    {result : Option Nat} (hsteps : ((Job.send data).prog lib cfg).Steps tr (.pure (.ok result)))
    (hserved : ∀ e ∈ tr, Served lib e.op e.ans)
    (hflag : data.stage = .foreign →
      executeOnForeignFlagOf cfg data.on_chain_calldata.bridgeMode = "true") :
    (protocol data.event_log_id).after false tr = true := by
  have hround : Act.Follows (recording DbSucceeds) [] ((Job.send data).prog lib cfg)
      fun tr result => ∀ a, result = .ok a → (tr.countP (settles data.event_log_id) = 1 ↔
        ¬Strands lib cfg data.on_chain_calldata data.stage tr) := by
    refine Act.follows_bind.mpr (ends_handle.mono ?_)
    rintro tr (e | a) hends
    · intro a ha
      cases ha
    · intro a ha
      rw [← hends]
      exact (and_iff_right rfl).symm
  have hadm : (recording DbSucceeds).Admitted ([] : Trace Calls) tr :=
    Protocol.admitted_of_mem _ fun e he _ => (hserved e he).1
  have hends := Prog.Follows.steps hround hsteps hadm result rfl
  rw [Protocol.after_eq_append (fun _ _ _ => rfl), List.nil_append] at hends
  have hgoes : ¬Strands lib cfg data.on_chain_calldata data.stage tr := by
    rintro ⟨required, hrequired, ⟨hstage, hoff⟩ | ⟨-, hlong⟩⟩
    · rw [executeOnForeignFlag_eq] at hoff
      exact hoff (hflag hstage)
    · obtain ⟨e, he, hanswer⟩ := hrequired.answer
      exact hlong ((hserved e he).2 required hanswer)
  apply after_of_settles (fun e he => (hserved e he).1)
  rw [hends.mpr hgoes]
  exact Nat.one_ne_zero

end OnChainSender

/-- The flags of `cfg` send on every row that is at stage `foreign`. -/
def Db.SendsOn (db : Db) (cfg : Config) : Prop :=
  ∀ r ∈ db.event_logs, r.stage = some .foreign →
    OnChainSender.executeOnForeignFlagOf cfg r.bridge_mode = "true"

namespace Sys

/-- Nothing goes wrong: what is claimed can be processed, the channel is open, the
sender's statements are executed and its thresholds are representable, nobody panics, and
the process is only started anew after all have left, with no flag set off that a row
needs. -/
structure Careful (lib : Externals) (s : Sys W) (l : Label) : Prop where
  processable : ∀ v max row, l = .call v ⟨.db (.claim max), .ok (some row)⟩ →
    MessageProcessor.Processable lib s.config row
  opened : ∀ v data e, l ≠ .call v ⟨.channelSend data, .error e⟩
  served : ∀ o x, l = .call .on_chain_sender ⟨o, x⟩ → OnChainSender.Served lib o x
  alive : ∀ v, l ≠ .panic v
  stopped : ∀ cfg, l = .restart cfg → (∀ v, s.exited v = true) ∧ s.shared.db.SendsOn cfg

/-- Every claimed row has a holder, who will be able to do with it what has to be done. -/
structure Tended (lib : Externals) (s : Sys W) : Prop where
  staged : s.Staged lib
  orderly : s.Orderly
  held : ∀ id r, s.row? id = some r → r.is_processed = some true → id ∈ s.held
  executes : ∀ id r, s.row? id = some r → r.stage = some .foreign →
    OnChainSender.executeOnForeignFlagOf s.config r.bridge_mode = "true"
  pass : ∀ r data, s.running .on_chain_sender = some r → r.job = .send data →
    data.stage = .foreign →
    OnChainSender.executeOnForeignFlagOf s.config data.on_chain_calldata.bridgeMode = "true"
  reliable : ∀ k, s.Heard (MessageProcessor.reliable lib) none (.processor k)
  served : ∀ r, s.running .on_chain_sender = some r →
    ∀ e ∈ r.trace, OnChainSender.Served lib e.op e.ans

variable {s t : Sys W} {l : Label} {ls : List Label} {id : Int} {data : SenderData}

/-- After all have left nobody holds a row. -/
theorem Orderly.not_held (h : s.Orderly) (hout : ∀ v, s.exited v = true) : id ∉ s.held := by
  intro hid
  have hrunning := fun v => h.stopped v (hout v)
  rcases mem_held.mp hid with ⟨k, row, hrow, -⟩ | ⟨data, hdata, -⟩ | ⟨data, hdata, -⟩
  · simp [Sys.claimed, hrunning] at hrow
  · rw [(h.drained (hout _)).1] at hdata
    cases hdata
  · simp [inHand, hrunning] at hdata

theorem Careful.not_ends (h : s.Careful lib l) (horderly : s.Orderly) (hid : id ∈ s.held) :
    l.ends = false := by
  cases l with
  | panic v => exact absurd rfl (h.alive v)
  | restart cfg => exact absurd hid (horderly.not_held (h.stopped cfg rfl).1)
  | _ => rfl

/-- A processor keeps its row until it hands it over. -/
theorem Tended.claimed_kept (h : s.Tended lib) (hstep : s.Step lib l t) (hl : s.Careful lib l)
    {k : ProcessorId} {row : EventLogRow} (hrow : s.claimed k = some row) :
    t.claimed k = some row ∨ ∃ data ∈ t.shared.channel, data.event_log_id = row.id := by
  have hs := h.staged.coherent
  have hlive : l.ends = false :=
    hl.not_ends h.orderly (mem_held.mpr (Or.inl ⟨k, row, hrow, rfl⟩))
  cases hstep with
  | index hidle => exact Or.inl ((claimed_begin hidle.1 k).trans hrow)
  | process hidle hsd => exact Or.inl ((claimed_begin hidle.1 k).trans hrow)
  | check hidle hfcr => exact Or.inl ((claimed_begin hidle.1 k).trans hrow)
  | @recv data rest hidle hch =>
      have hpop : s.popChannel.running (Job.service (.send data)) = none := hidle.1
      exact Or.inl ((claimed_begin hpop k).trans hrow)
  | @call v r o c x sh hr hrest hans =>
      by_cases hv : .processor k = v
      · subst hv
        have hservice := (hs _ r hr).1
        have hallow := hs.running_allows hr hrest
        cases hjob : r.job with
        | process j =>
            rw [Running.Allows, hjob] at hallow
            have hheld : (MessageProcessor.protocol s.config).after none r.trace = some row := by
              simpa [Sys.claimed, hr, Running.claimed] using hrow
            rw [hheld] at hallow
            cases hans with
            | rpc _ => exact hallow.elim
            | @db st x db' hans =>
                cases st with
                | claim max => exact absurd hallow.1 (by simp)
                | _ => exact hallow.elim
            | @sent data hroom =>
                obtain ⟨row', hrow', hd⟩ := hallow
                obtain rfl := Option.some.inj hrow'
                exact Or.inr ⟨data, by simp [Sys.advance], hd.id⟩
            | @closed data e => exact absurd rfl (hl.opened _ data e)
        | _ =>
            rw [hjob] at hservice
            cases hservice
      · exact Or.inl (((s.advance_frame v r ⟨o, x⟩ (c x) sh).2.1 k hv).trans hrow)
  | @finish v r result hr hrest =>
      by_cases hv : .processor k = v
      · subst hv
        obtain ⟨hservice, hsteps⟩ := hs _ r hr
        cases hjob : r.job with
        | process j =>
            rw [hjob, hrest] at hsteps
            have hround : Act.Follows (MessageProcessor.reliable lib s.config) none
                (Job.prog lib s.config (.process j)) fun held _ => held = none := by
              refine Act.follows_bind.mpr (MessageProcessor.reliable_iteration.mono ?_)
              rintro held (_ | _) hheld <;> exact hheld
            have hnone := Prog.Follows.steps hround hsteps (h.reliable k r hr)
            have hheld : (MessageProcessor.reliable lib s.config).after none r.trace = none := hnone
            rw [after_reliable] at hheld
            simp [Sys.claimed, hr, Running.claimed, hheld] at hrow
        | _ =>
            rw [hjob] at hservice
            cases hservice
      · left
        rw [← hrow]
        simp [Sys.claimed, Sys.done, Function.update_of_ne hv]
  | panic hr hrest => cases hlive
  | restart => cases hlive
  | exit _ _ | signal | tick _ => exact Or.inl hrow

/-- A message stays in the channel until the sender takes it. -/
theorem Tended.channel_kept (h : s.Tended lib) (hstep : s.Step lib l t) (hl : s.Careful lib l)
    (hdata : data ∈ s.shared.channel) :
    data ∈ t.shared.channel ∨ t.inHand = some data := by
  have hlive : l.ends = false :=
    hl.not_ends h.orderly (mem_held.mpr (Or.inr (Or.inl ⟨data, hdata, rfl⟩)))
  cases hstep with
  | @recv data' rest hidle hch =>
      rw [hch] at hdata
      rcases List.mem_cons.mp hdata with rfl | hdata
      · exact Or.inr (by simp [inHand, Sys.begin, Job.service, Running.inHand])
      · exact Or.inl (by simpa [Sys.begin, popChannel, hch] using hdata)
  | call hr hrest hans =>
      cases hans with
      | sent _ => exact Or.inl (List.mem_append_left _ hdata)
      | _ => exact Or.inl hdata
  | panic hr hrest => cases hlive
  | restart => cases hlive
  | _ => exact Or.inl hdata

/-- The sender keeps its row until it is settled. -/
theorem Tended.inHand_kept (h : s.Tended lib) (hstep : s.Step lib l t) (hl : s.Careful lib l)
    (hhand : s.inHand = some data) :
    t.inHand = some data ∨ t.row? data.event_log_id = none ∨
      t.row? data.event_log_id = (s.row? data.event_log_id).map EventLog.released := by
  have hs := h.staged.coherent
  have hk := h.staged.owned.keyed
  have hlive : l.ends = false :=
    hl.not_ends h.orderly (mem_held.mpr (Or.inr (Or.inr ⟨data, hhand, rfl⟩)))
  cases hstep.sender with
  | others hrunning _ => exact Or.inl (by rw [inHand, hrunning]; exact hhand)
  | recv hidle hch =>
      rw [inHand, hidle.1] at hhand
      cases hhand
  | @call r o k x sh hr hrest hans =>
      have hservice := (hs _ r hr).1
      cases hjob : r.job with
      | send data' =>
          obtain ⟨hbefore, hafter⟩ := s.inHand_advance r ⟨o, x⟩ (k x) sh hr hjob
          rw [hhand] at hbefore
          have hopen : (OnChainSender.protocol data'.event_log_id).after false r.trace = false := by
            by_contra hsettled
            rw [if_pos (Bool.not_eq_false _ ▸ hsettled)] at hbefore
            cases hbefore
          rw [hopen] at hbefore hafter
          obtain rfl := Option.some.inj hbefore
          have hallow := hs.running_allows hr hrest
          rw [Running.Allows, hjob] at hallow
          cases hans with
          | @db st x db' hans =>
              have heff := hans.rowEffect hk data.event_log_id
              cases st with
              | incrementRetryCount id' =>
                  obtain ⟨-, rfl⟩ := hallow
                  cases x with
                  | error e => exact Or.inl hafter
                  | ok a => exact Or.inr (Or.inr (heff.trans (if_pos rfl)))
              | deleteEventLog id' =>
                  obtain ⟨-, rfl⟩ := hallow
                  cases x with
                  | error e => exact Or.inl hafter
                  | ok a => exact Or.inr (Or.inl (heff.trans (if_pos rfl)))
              | _ => cases x <;> exact Or.inl hafter
          | sent _ => exact hallow.elim
          | closed => exact hallow.elim
          | rpc _ => exact Or.inl hafter
      | _ =>
          rw [hjob] at hservice
          cases hservice
  | @finish r result hr hrest =>
      obtain ⟨hservice, hsteps⟩ := hs _ r hr
      cases hjob : r.job with
      | send data' =>
          rw [hjob, hrest] at hsteps
          have hsettled := OnChainSender.settled_of_served hsteps (h.served r hr)
            (h.pass r data' hr hjob)
          simp [inHand, hr, Running.inHand, hjob, hsettled] at hhand
      | _ =>
          rw [hjob] at hservice
          cases hservice
  | ends hends _ =>
      rw [hlive] at hends
      cases hends

/-- Who claims a row has it. -/
theorem claimed_of_claim {k : ProcessorId} {max : Int} {row : EventLogRow}
    (hstep : s.Step lib (.call (.processor k) ⟨.db (.claim max), .ok (some row)⟩) t) :
    t.claimed k = some row := by
  cases hstep with
  | @call _ r _ c _ sh hr hrest hans =>
      exact s.claimed_advance r ⟨.db (.claim max), .ok (some row)⟩ (c (.ok (some row))) sh hr

/-- What is held stays held, or is settled. -/
theorem Tended.held_kept (h : s.Tended lib) (hstep : s.Step lib l t) (hl : s.Careful lib l)
    (hid : id ∈ s.held) : id ∈ t.held ∨ t.row? id = none ∨
      t.row? id = (s.row? id).map EventLog.released := by
  rcases mem_held.mp hid with ⟨k, row, hrow, rfl⟩ | ⟨data, hdata, rfl⟩ | ⟨data, hhand, rfl⟩
  · rcases h.claimed_kept hstep hl hrow with hrow' | hqueued
    · exact Or.inl (mem_held.mpr (Or.inl ⟨k, row, hrow', rfl⟩))
    · exact Or.inl (mem_held.mpr (Or.inr (Or.inl hqueued)))
  · rcases h.channel_kept hstep hl hdata with hdata' | hhand
    · exact Or.inl (mem_held.mpr (Or.inr (Or.inl ⟨data, hdata', rfl⟩)))
    · exact Or.inl (mem_held_of_inHand hhand)
  · rcases h.inHand_kept hstep hl hhand with hhand' | hsettled
    · exact Or.inl (mem_held_of_inHand hhand')
    · exact Or.inr hsettled

/-- A claimed row was held before, or has just been claimed. -/
theorem Tended.held_step (h : s.Tended lib) (hstep : s.Step lib l t) (hl : s.Careful lib l)
    {r' : EventLog} (hr' : t.row? id = some r') (hp : r'.is_processed = some true) :
    id ∈ t.held := by
  have hs := h.staged.coherent
  have hk := h.staged.owned.keyed
  have hbefore : id ∈ s.held ∨ id ∈ t.held := by
    have hrow := hstep.rowStep hs hk id
    generalize t.row? id = after at hrow hr'
    cases hrow with
    | same hfree => exact Or.inl (h.held id r' hr' hp)
    | inserted hnew =>
        obtain rfl := Option.some.inj hr'
        cases hp
    | claimed hr hclaimable =>
        exact Or.inr (mem_held.mpr (Or.inl ⟨_, _, claimed_of_claim hstep, Db.row?_id hr⟩))
    | staged hr hhand hid => exact Or.inl (mem_held.mpr (Or.inr (Or.inr ⟨_, hhand, hid⟩)))
    | released hr hhand hid =>
        obtain rfl := Option.some.inj hr'
        cases hp
    | deleted => cases hr'
    | checked hr hst hstatus =>
        obtain rfl := Option.some.inj hr'
        exact Or.inl (h.held id _ hr hp)
  rcases hbefore with hid | hid
  · rcases h.held_kept hstep hl hid with hid' | hgone | hreleased
    · exact hid'
    · rw [hr'] at hgone
      cases hgone
    · rw [hr'] at hreleased
      obtain ⟨r, -, rfl⟩ := Option.map_eq_some_iff.mp hreleased.symm
      cases hp
  · exact hid

/-- Rows get to stage `foreign` with their flag on. -/
theorem Tended.executes_step (h : s.Tended lib) (hstep : s.Step lib l t) (hl : s.Careful lib l)
    {r' : EventLog} (hr' : t.row? id = some r') (hstage : r'.stage = some .foreign) :
    OnChainSender.executeOnForeignFlagOf t.config r'.bridge_mode = "true" := by
  have hs := h.staged.coherent
  have hk := h.staged.owned.keyed
  cases hrestart : l.isRestart with
  | true =>
      cases l <;> cases hrestart
      cases hstep with
      | restart => exact (hl.stopped _ rfl).2 r' (Db.row?_mem hr') hstage
  | false =>
      rw [hstep.config_eq hrestart]
      rcases lt_or_ge id s.shared.db.next_id with hid | hid
      · obtain ⟨r, hr, hmode, hsame⟩ := hstep.row_frame hs hk hid hr'
        rw [hmode]
        by_cases hforeign : r.stage = some .foreign
        · exact h.executes id r hr hforeign
        · refine (h.staged.stageChange hstep hr hr' ?_).goes_foreign.2
          rw [hstage]
          exact Ne.symm hforeign
      · rcases (hstep.rowStep hs hk id).stage hr' with ⟨r, hr, -⟩ | ⟨-, hhome⟩ | ⟨-, rfl⟩
        · have hlt := hk.lt_next_of_row? hr
          omega
        · rw [hhome] at hstage
          cases hstage
        · obtain ⟨-, data, hhand, rfl⟩ := holder_of_statement hs rfl hstep
          obtain ⟨r, hr, -⟩ := h.staged.owned.held_row (mem_held_of_inHand hhand)
          have hlt := hk.lt_next_of_row? hr
          omega

/-- The sender begins a pass with the stage of the row. -/
theorem Tended.pass_step (h : s.Tended lib) (hstep : s.Step lib l t) {r : Running}
    (hr : t.running .on_chain_sender = some r) (hjob : r.job = .send data)
    (hstage : data.stage = .foreign) :
    OnChainSender.executeOnForeignFlagOf t.config data.on_chain_calldata.bridgeMode = "true" := by
  have hrestart : l.isRestart = false := by
    cases hl : l.isRestart with
    | false => rfl
    | true =>
        cases l <;> cases hl
        cases hstep
        cases hr
  have hpass : t.passOver data.event_log_id = some (r, data) := passOver_iff.mpr ⟨hr, hjob, rfl⟩
  rw [hstep.config_eq hrestart]
  rcases passOver_step hstep hpass with ⟨hbefore, -⟩ | ⟨-, hwait, -⟩ | ⟨r₀, o, x, hbefore, -⟩
  · obtain ⟨hr₀, hjob₀, -⟩ := passOver_iff.mp hbefore
    exact h.pass r data hr₀ hjob₀ hstage
  · obtain ⟨row, hrow, -⟩ := h.staged.owned.held_row (mem_held_of_waiting hwait)
    obtain ⟨hfits, hmode⟩ := h.staged.owned.fits data.claim hwait row hrow
    have hflag := h.executes _ row hrow (hfits.trans (congrArg some hstage))
    rwa [hmode] at hflag
  · obtain ⟨hr₀, hjob₀, -⟩ := passOver_iff.mp hbefore
    exact h.pass r₀ data hr₀ hjob₀ hstage

theorem Careful.admits (h : s.Careful lib l) {v : Service} {o : Op} {x : o.Ans}
    (hl : l = .call v ⟨o, x⟩) (held : Option EventLogRow) :
    (MessageProcessor.reliable lib s.config).admits held o x := by
  cases o with
  | rpc rq => trivial
  | channelSend data =>
      cases x with
      | error e => exact absurd hl (h.opened v data e)
      | ok a => trivial
  | db st =>
      cases st with
      | claim max =>
          rcases x with e | (_ | row)
          · trivial
          · trivial
          · exact h.processable v max row hl
      | _ => trivial

theorem Tended.step (h : s.Tended lib) (hstep : s.Step lib l t) (hl : s.Careful lib l) :
    t.Tended lib where
  staged := h.staged.step hstep
  orderly := h.orderly.step h.staged.coherent hstep
  held _ _ hr' hp := h.held_step hstep hl hr' hp
  executes _ _ hr' hstage := h.executes_step hstep hl hr' hstage
  pass _ _ hr hjob hstage := h.pass_step hstep hr hjob hstage
  reliable k := (h.reliable k).step hstep fun _ _ _ _ _ heq _ => hl.admits heq _
  served r' hr' := by
    rcases hstep.round hr' with hr | ⟨-, -, hnil⟩ | ⟨r, o, x, sh, hr, rfl, -, -, htrace⟩
    · exact h.served r' hr
    · rw [hnil]
      exact List.forall_mem_nil _
    · intro e he
      rw [htrace] at he
      rcases List.mem_append.mp he with he | he
      · exact h.served r hr e he
      · rw [List.mem_singleton.mp he]
        exact hl.served o x rfl

end Sys

/-- The table is as an orderly process leaves it: no transaction is open and no row is
claimed. -/
structure Db.AtRest (db : Db) : Prop where
  keyed : db.Keyed
  closed : db.tx = none
  stages : ∀ r ∈ db.event_logs, r.stage = some .home ∨ r.stage = some .foreign
  free : ∀ r ∈ db.event_logs, r.is_processed ≠ some true

theorem Sys.tended_boot {cfg : Config} {db : Db} {w : W.State} (hdb : db.AtRest)
    (hflags : db.SendsOn cfg) : (boot cfg db w).Tended lib where
  staged := by
    constructor
    · exact coherent_boot
    · refine owned_over hdb.keyed fun r hr => ?_
      rcases hdb.stages r hr with hstage | hstage <;> simp [hstage]
    · exact fun id r hr => hdb.stages r (Db.row?_mem hr)
    · intro id r data hpass
      cases hpass
    · intro id r data hpass
      cases hpass
  orderly := orderly_boot hdb.closed
  held id r hr hp := absurd hp (hdb.free r (Db.row?_mem hr))
  executes id r hr hstage := hflags r (Db.row?_mem hr) hstage
  pass r data hr := by cases hr
  reliable k r hr := by cases hr
  served r hr := by cases hr

/-- **Careful processes lose no row.** Over a table at rest, through any number of
processes that end by the signal and meet with no failure, the claimed rows are at every
moment exactly the ones that somebody holds; and the table is at rest again when all have
left. -/
theorem claimed_rows_are_held {cfg : Config} {db : Db} {w : W.State} {ls : List Label}
    {t : Sys W} (hdb : db.AtRest) (hflags : db.SendsOn cfg)
    (hrun : ((system lib W).guarded fun s l _ => s.Careful lib l).Run (Sys.boot cfg db w) ls t) :
    (∀ id, (∃ r, t.row? id = some r ∧ r.is_processed = some true) ↔ id ∈ t.held) ∧
      ((∀ v, t.exited v = true) → t.shared.db.AtRest) := by
  have ht : t.Tended lib :=
    hrun.invariant (fun _ _ _ hs hstep => hs.step hstep.1 hstep.2) (Sys.tended_boot hdb hflags)
  have hk := ht.staged.owned.keyed
  refine ⟨fun id => ⟨?_, ht.staged.owned.held_row⟩, fun hout => ⟨hk, ?_, ?_, ?_⟩⟩
  · rintro ⟨r, hr, hp⟩
    exact ht.held id r hr hp
  · have hclosed : t.phase = .closed := by
      rw [Sys.phase, ht.orderly.stopped _ (hout _)]
      rfl
    exact ht.orderly.tx.resolve_right (not_not.mpr hclosed)
  · exact fun r hr => ht.staged.stages r.id r (hk.row?_of_mem hr)
  · intro r hr hp
    exact ht.orderly.not_held hout (ht.held r.id r (hk.row?_of_mem hr) hp)

/-- The sender's statements are executed, and its thresholds are small. -/
def Deployment.serves : Label → Bool
  | .call .on_chain_sender ⟨o, x⟩ => decide (OnChainSender.DbSucceeds o x) &&
      (OnChainSender.requiredAnswer ⟨o, x⟩).all fun required =>
        decide (65 * required.toNat + 2 ≤ u64Max)
  | _ => true

theorem Deployment.careful_of_smooth {s : Sys W} {l : Label} (hcfg : s.config = config)
    (hsmooth : smooth l = true) (hserves : serves l = true) : s.Careful externals l := by
  have hl := smooth_sound hsmooth
  constructor
  · rintro v max row rfl
    rw [hcfg]
    exact hl
  · rintro v data e rfl
    exact hl
  · rintro o x rfl
    simp only [serves, Bool.and_eq_true, decide_eq_true_eq] at hserves
    refine ⟨hserves.1, fun required hrequired => ?_⟩
    have hle : 65 * required.toNat + 2 ≤ u64Max := by
      rw [hrequired] at hserves
      simpa using hserves.2
    exact ⟨by omega, fun _ => hle⟩
  · rintro v rfl
    exact hl
  · rintro cfg rfl
    exact hl.elim

theorem Deployment.careful_run {db : Db} {w : W.State} {ls : List Label} {t : Sys W}
    (hrun : (system externals W).Run (Sys.boot config db w) ls t)
    (hls : ∀ l ∈ ls, smooth l = true ∧ serves l = true) :
    ((system externals W).guarded fun s l _ => s.Careful externals l).Run
      (Sys.boot config db w) ls t ∧ t.config = config := by
  induction hrun with
  | nil => exact ⟨.nil, rfl⟩
  | @snoc ls t l u hrun hstep ih =>
      obtain ⟨hbefore, hcfg⟩ := ih fun l' hl' => hls l' (List.mem_append_left _ hl')
      obtain ⟨hsmooth, hserves⟩ := hls l (List.mem_append_right _ (List.mem_singleton_self l))
      refine ⟨.snoc hbefore ⟨hstep, careful_of_smooth hcfg hsmooth hserves⟩, ?_⟩
      rw [← hcfg]
      apply hstep.config_eq
      cases l with
      | restart cfg => cases hsmooth
      | _ => rfl

/-- An affirmation on its way to the sender. -/
theorem claimed_rows_are_held_queued :
    ∃ (t : Sys World.any) (ls : List Label),
      ((system Deployment.externals World.any).guarded fun s l _ =>
        s.Careful Deployment.externals l).Run (Sys.boot Deployment.config Db.empty ()) ls t ∧
      (t.row? 1).any (fun r => r.is_processed == some true) = true ∧ 1 ∈ t.held := by
  obtain ⟨ls, t, hrun, -, hp⟩ := Turn.exists_of_playAll
    [.index .ETHAmb (Deployment.lookups (.repeatByte 32 0xaa)),
      .process .msg_processor_1 (Deployment.lookups (.repeatByte 32 0xaa))]
    (fun q => q.1.all (fun l => Deployment.smooth l && Deployment.serves l) &&
      (q.2.row? 1).any fun r => r.is_processed == some true)
    Turn.sound_any
    (Sys.resting_boot : (Sys.boot Deployment.config Db.empty () : Sys World.any).Resting)
    (show (Turn.playAll Deployment.externals _ _).any _ = true by decide +kernel)
  rw [Bool.and_eq_true, List.all_eq_true] at hp
  obtain ⟨hls, hclaimed⟩ := hp
  have hcareful := (Deployment.careful_run hrun fun l hl => Bool.and_eq_true_iff.mp (hls l hl)).1
  have hdb : Db.empty.AtRest :=
    ⟨Db.keyed_empty, rfl, List.forall_mem_nil _, List.forall_mem_nil _⟩
  have hheld := (claimed_rows_are_held hdb (List.forall_mem_nil _) hcareful).1 1
  refine ⟨t, ls, hcareful, hclaimed, hheld.mp ?_⟩
  simpa [Option.any_eq_true] using hclaimed

end BridgeValidator
