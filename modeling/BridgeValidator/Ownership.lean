import BridgeValidator.Roles
import BridgeValidator.Rounds
import BridgeValidator.Rows
import Mathlib.Algebra.Order.Group.Multiset

/-!
# Exclusive ownership of claimed rows

A claimed row is held by the processor that claimed it, then by the message in
the channel, then by the sender until it deletes or releases the row. The
holders are read off the traces of the rounds in progress; `Move` says what
one step can do to them and to the rows, and the ownership invariant is
derived from that alone.
-/

namespace BridgeValidator

open Interaction

variable {W : World} {lib : Externals}

/-! ## Holders -/

/-- What a holder knows of its row. -/
structure Claim where
  id : Int
  stage : Option Stage
  mode : BridgeMode
deriving DecidableEq

def EventLogRow.claim (row : EventLogRow) : Claim := ⟨row.id, row.stage, row.bridge_mode⟩

def SenderData.claim (data : SenderData) : Claim :=
  ⟨data.event_log_id, some data.stage, data.on_chain_calldata.bridgeMode⟩

/-- The row this round has claimed and not handed over. -/
def Running.claimed (cfg : Config) (r : Running) : Option EventLogRow :=
  (MessageProcessor.protocol cfg).after none r.trace

/-- The message this round works on, until its row is settled. -/
def Running.inHand (r : Running) : Option SenderData :=
  match r.job with
  | .send data =>
      if (OnChainSender.protocol data.event_log_id).after false r.trace then none else some data
  | _ => none

namespace Sys

def row? (s : Sys W) (id : Int) : Option EventLog := s.shared.db.row? id

def claimed (s : Sys W) (k : ProcessorId) : Option EventLogRow :=
  (s.running (.processor k)).bind (Running.claimed s.config)

def inHand (s : Sys W) : Option SenderData := (s.running .on_chain_sender).bind Running.inHand

/-- Claims on their way to the sender. -/
def waiting (s : Sys W) : Multiset Claim :=
  (s.claimed .msg_processor_1).elim 0 (fun row => {row.claim}) +
    (s.claimed .msg_processor_2).elim 0 (fun row => {row.claim}) +
    s.shared.channel.map SenderData.claim

/-- The ids of all rows somebody holds, with multiplicity. -/
def held (s : Sys W) : Multiset Int :=
  s.waiting.map Claim.id + s.inHand.elim 0 fun data => {data.event_log_id}

end Sys

/-! ## What one step can do -/

/-- The columns the pipeline works with have not changed. -/
structure EventLog.Agrees (r r' : EventLog) : Prop where
  bridge_mode : r'.bridge_mode = r.bridge_mode
  is_processed : r'.is_processed = r.is_processed
  retry_count : r'.retry_count = r.retry_count
  stage : r'.stage = r.stage

/-- A row is kept, or a fresh one appears. -/
def Kept (before after : Option EventLog) : Prop :=
  match before, after with
  | some r, some r' => r.Agrees r'
  | none, some r' => r'.is_processed = some false ∧ r'.stage = some .home
  | none, none => True
  | some _, none => False

/-- The effects of one step on claims and rows. -/
inductive Move (s t : Sys W) : Prop where
  /-- claims are at most dropped -/
  | quiet (hw : t.waiting ≤ s.waiting) (hh : t.inHand = s.inHand ∨ t.inHand = none)
      (hrow : ∀ id, Kept (s.row? id) (t.row? id))
  /-- `read_from_db` -/
  | claim {row : EventLogRow} {r : EventLog} (hw : t.waiting = row.claim ::ₘ s.waiting)
      (hh : t.inHand = s.inHand) (hr : s.row? row.id = some r) (hrow : r.toRow = row)
      (hfree : r.is_processed = some false)
      (hr' : t.row? row.id = some r.claimed) (hother : ∀ id, id ≠ row.id → t.row? id = s.row? id)
  /-- `tokio_sender.send` -/
  | handOver {row : EventLogRow} {data : SenderData} {rest : Multiset Claim}
      (hw : s.waiting = row.claim ::ₘ rest) (hw' : t.waiting = data.claim ::ₘ rest)
      (hd : row.HandedOverAs data) (hh : t.inHand = s.inHand) (hrow : ∀ id, t.row? id = s.row? id)
  /-- `tokio_receiver.recv` -/
  | recv {data : SenderData} (hw : s.waiting = data.claim ::ₘ t.waiting) (hh : s.inHand = none)
      (hh' : t.inHand = some data) (hrow : ∀ id, t.row? id = s.row? id)
  /-- `update_stage` -/
  | stage {data : SenderData} (hw : t.waiting = s.waiting) (hh : s.inHand = some data)
      (hh' : t.inHand = some data)
      (hrow : t.row? data.event_log_id =
        (s.row? data.event_log_id).map (EventLog.withStage .foreign))
      (hother : ∀ id, id ≠ data.event_log_id → t.row? id = s.row? id)
  /-- `delete_event_log` or `increment_retry_count` -/
  | settle {data : SenderData} (hw : t.waiting = s.waiting) (hh : s.inHand = some data)
      (hh' : t.inHand = none)
      (hrow : t.row? data.event_log_id = none ∨
        t.row? data.event_log_id = (s.row? data.event_log_id).map EventLog.released)
      (hother : ∀ id, id ≠ data.event_log_id → t.row? id = s.row? id)

theorem kept_refl (before : Option EventLog) : Kept before before := by
  cases before with
  | none => trivial
  | some r => exact ⟨rfl, rfl, rfl, rfl⟩

theorem kept_of_eq {before after : Option EventLog} (h : after = before) : Kept before after :=
  h ▸ kept_refl before

namespace Sys

variable {s t : Sys W}

section

variable (s) (v : Service) (r : Running) (e : Event Calls) (rest : Action (Option Nat))
  (sh : Shared W)

/-- Answering a call of one service leaves the others' rounds alone. -/
theorem advance_frame :
    (s.advance v r e rest sh).shared = sh ∧
    (∀ k, .processor k ≠ v → (s.advance v r e rest sh).claimed k = s.claimed k) ∧
    (.on_chain_sender ≠ v → (s.advance v r e rest sh).inHand = s.inHand) := by
  refine ⟨rfl, fun k hk => ?_, fun hv => ?_⟩
  · simp [claimed, advance, Function.update_of_ne hk]
  · simp [inHand, advance, Function.update_of_ne hv]

theorem claimed_advance {k : ProcessorId} (hr : s.running (.processor k) = some r) :
    (s.advance (.processor k) r e rest sh).claimed k =
      MessageProcessor.heldAfter (s.claimed k) e.op e.ans := by
  simp [claimed, advance, hr, Running.claimed, MessageProcessor.protocol]

theorem inHand_advance {data : SenderData} (hr : s.running .on_chain_sender = some r)
    (hjob : r.job = .send data) :
    s.inHand = (if (OnChainSender.protocol data.event_log_id).after false r.trace then none
      else some data) ∧
    (s.advance .on_chain_sender r e rest sh).inHand =
      if OnChainSender.settledAfter
        ((OnChainSender.protocol data.event_log_id).after false r.trace) e.op e.ans then none
      else some data := by
  simp [inHand, advance, hr, Running.inHand, hjob]

end

theorem waiting_congr (hcl : ∀ k, t.claimed k = s.claimed k)
    (hch : t.shared.channel = s.shared.channel) : t.waiting = s.waiting := by
  simp [waiting, hcl, hch]

/-- The waiting claims, seen from one processor. -/
theorem waiting_eq (s : Sys W) (k : ProcessorId) :
    ∃ rest, ∀ t : Sys W, (∀ j, j ≠ k → t.claimed j = s.claimed j) →
      t.waiting = (t.claimed k).elim 0 (fun row => {row.claim}) +
        (rest + (t.shared.channel.map SenderData.claim : List Claim)) := by
  cases k with
  | msg_processor_1 =>
      refine ⟨(s.claimed .msg_processor_2).elim 0 fun row => {row.claim}, fun t ht => ?_⟩
      rw [waiting, ht .msg_processor_2 (by simp), add_assoc]
  | msg_processor_2 =>
      refine ⟨(s.claimed .msg_processor_1).elim 0 fun row => {row.claim}, fun t ht => ?_⟩
      rw [waiting, ht .msg_processor_1 (by simp), add_assoc, add_left_comm]

variable {v : Service} {r : Running} {o : Op} {x : o.Ans} {sh : Shared W}
  {k : o.Ans → Prog Calls (Except (Exit BridgeValidatorError) (Option Nat))}

/-- Calls of an indexer: lookups, and INSERTs of fresh rows. -/
theorem move_index {i : IndexerId} {last_processed_block : Nat} (hs : s.Coherent lib)
    (hk : s.shared.db.Keyed) (hr : s.running v = some r) (hrest : r.rest = Prog.call o k)
    (hans : s.shared.Answers o x sh) (hjob : r.job = .index i last_processed_block) :
    Move s (s.advance v r ⟨o, x⟩ (k x) sh) := by
  have hv : .indexer i = v := by simpa [hjob, Job.service] using (hs v r hr).1
  subst hv
  have hallow := hs.running_allows hr hrest
  simp only [Running.Allows, hjob] at hallow
  obtain ⟨hsh, hcl, hih⟩ := s.advance_frame (.indexer i) r ⟨o, x⟩ (k x) sh
  generalize s.advance (.indexer i) r ⟨o, x⟩ (k x) sh = t at *
  replace hcl : ∀ k, t.claimed k = s.claimed k := fun k => hcl k (by simp)
  replace hih : t.inHand = s.inHand := hih (by simp)
  cases hans with
  | rpc h =>
      exact .quiet (waiting_congr hcl (by rw [hsh])).le (Or.inl hih)
        fun id => kept_of_eq (by rw [row?, hsh, row?])
  | @db st x db' h =>
      refine .quiet (waiting_congr hcl (by rw [hsh])).le (Or.inl hih) fun id => ?_
      have heff := h.rowEffect hk id
      rw [row?, row?, hsh]
      cases st with
      | insertEventLog n =>
          obtain ⟨log, log_index, topic_key, log_json, -, rfl⟩ := hallow
          cases x with
          | error e => exact kept_of_eq heff
          | ok a =>
              rcases heff with heff | ⟨rfl, heff⟩
              · exact kept_of_eq heff
              · rw [heff, hk.row?_of_next_le (le_refl _)]
                exact ⟨rfl, rfl⟩
      | _ => exact hallow.elim
  | sent h => exact hallow.elim
  | closed => exact hallow.elim

/-- Calls of a processor: claim a free row, hand the claimed one over. -/
theorem move_process {j : ProcessorId} (hs : s.Coherent lib)
    (hk : s.shared.db.Keyed) (hr : s.running v = some r) (hrest : r.rest = Prog.call o k)
    (hans : s.shared.Answers o x sh) (hjob : r.job = .process j) :
    Move s (s.advance v r ⟨o, x⟩ (k x) sh) := by
  have hv : .processor j = v := by simpa [hjob, Job.service] using (hs v r hr).1
  subst hv
  have hallow := hs.running_allows hr hrest
  simp only [Running.Allows, hjob] at hallow
  have hheld : (MessageProcessor.protocol s.config).after none r.trace = s.claimed j := by
    simp [claimed, hr, Running.claimed]
  rw [hheld] at hallow
  have hself := s.claimed_advance r ⟨o, x⟩ (k x) sh hr
  obtain ⟨hsh, hcl, hih⟩ := s.advance_frame (.processor j) r ⟨o, x⟩ (k x) sh
  generalize s.advance (.processor j) r ⟨o, x⟩ (k x) sh = t at *
  replace hih : t.inHand = s.inHand := hih (by simp)
  obtain ⟨rest, hw⟩ := s.waiting_eq j
  have hws := hw s fun _ _ => rfl
  have hwt := hw t fun i hi => hcl i (by simpa using hi)
  rw [hself, hsh] at hwt
  have hrow : ∀ id, t.row? id = sh.db.row? id := fun id => by rw [row?, hsh]
  cases hans with
  | rpc h => exact hallow.elim
  | @db st x db' h =>
      have heff := fun id => h.rowEffect hk id
      cases st with
      | claim max =>
          obtain ⟨hnone, rfl⟩ := hallow
          rw [hnone] at hws hwt
          rcases x with e | _ | row
          · exact .quiet (hwt.trans hws.symm).le (Or.inl hih) fun id =>
              kept_of_eq ((hrow id).trans (heff id))
          · exact .quiet (hwt.trans hws.symm).le (Or.inl hih) fun id =>
              kept_of_eq ((hrow id).trans (heff id))
          · obtain ⟨r₀, hr₀, rfl, hcl₀, hr'⟩ := (heff row.id).1 rfl
            refine .claim ?_ hih hr₀ rfl ?_ ((hrow _).trans hr')
              fun id hid => (hrow id).trans ((heff id).2 hid)
            · rw [hwt, hws]
              simp [MessageProcessor.heldAfter, Multiset.singleton_add]
            · simp only [EventLog.isClaimable, Bool.and_eq_true, beq_iff_eq] at hcl₀
              exact hcl₀.1
      | _ => exact hallow.elim
  | @sent data h =>
      obtain ⟨row, hheld, hd⟩ := hallow
      rw [hheld] at hws hwt
      refine .handOver hws ?_ hd hih hrow
      rw [hwt]
      simp only [MessageProcessor.heldAfter, Option.elim, zero_add, List.map_append, List.map_cons,
        List.map_nil, ← Multiset.coe_add]
      rw [Multiset.coe_singleton, ← add_assoc, ← Multiset.singleton_add, add_comm]
  | closed =>
      exact .quiet (hwt.trans hws.symm).le (Or.inl hih) fun id => kept_of_eq (hrow id)

/-- Calls of the sender: RPC, the stage of its row, and its settlement. -/
theorem move_send {data : SenderData} (hs : s.Coherent lib)
    (hk : s.shared.db.Keyed) (hr : s.running v = some r) (hrest : r.rest = Prog.call o k)
    (hans : s.shared.Answers o x sh) (hjob : r.job = .send data) :
    Move s (s.advance v r ⟨o, x⟩ (k x) sh) := by
  have hv : .on_chain_sender = v := by simpa [hjob, Job.service] using (hs v r hr).1
  subst hv
  have hallow := hs.running_allows hr hrest
  simp only [Running.Allows, hjob] at hallow
  obtain ⟨hih, hih'⟩ := s.inHand_advance r ⟨o, x⟩ (k x) sh hr hjob
  obtain ⟨hsh, hcl, -⟩ := s.advance_frame .on_chain_sender r ⟨o, x⟩ (k x) sh
  generalize s.advance .on_chain_sender r ⟨o, x⟩ (k x) sh = t at *
  generalize (OnChainSender.protocol data.event_log_id).after false r.trace = settled at *
  replace hcl : ∀ k, t.claimed k = s.claimed k := fun k => hcl k (by simp)
  have hrow : ∀ id, t.row? id = sh.db.row? id := fun id => by rw [row?, hsh]
  cases hans with
  | rpc h =>
      exact .quiet (waiting_congr hcl (by rw [hsh])).le (Or.inl (hih'.trans hih.symm))
        fun id => kept_of_eq (hrow id)
  | @db st x db' h =>
      have hw : t.waiting = s.waiting := waiting_congr hcl (by rw [hsh])
      have heff := fun id => h.rowEffect hk id
      cases st with
      | updateStage stage id' =>
          obtain ⟨rfl, rfl, rfl⟩ := hallow
          cases x with
          | error e =>
              exact .quiet hw.le (Or.inl (hih'.trans hih.symm))
                fun id => kept_of_eq ((hrow id).trans (heff id))
          | ok a =>
              refine .stage hw hih hih' ((hrow _).trans ((heff _).trans (if_pos rfl))) ?_
              exact fun id hid => (hrow id).trans ((heff id).trans (if_neg hid))
      | incrementRetryCount id' =>
          obtain ⟨rfl, rfl⟩ := hallow
          cases x with
          | error e =>
              exact .quiet hw.le (Or.inl (hih'.trans hih.symm))
                fun id => kept_of_eq ((hrow id).trans (heff id))
          | ok a =>
              refine .settle hw hih hih' (Or.inr ((hrow _).trans ((heff _).trans (if_pos rfl)))) ?_
              exact fun id hid => (hrow id).trans ((heff id).trans (if_neg hid))
      | deleteEventLog id' =>
          obtain ⟨rfl, rfl⟩ := hallow
          cases x with
          | error e =>
              exact .quiet hw.le (Or.inl (hih'.trans hih.symm))
                fun id => kept_of_eq ((hrow id).trans (heff id))
          | ok a =>
              refine .settle hw hih hih' (Or.inl ((hrow _).trans ((heff _).trans (if_pos rfl)))) ?_
              exact fun id hid => (hrow id).trans ((heff id).trans (if_neg hid))
      | _ => exact hallow.elim
  | sent h => exact hallow.elim
  | closed => exact hallow.elim

/-- Setting `fcr_status` of some rows changes nothing the pipeline works with. -/
theorem kept_withStatus {p : EventLog → Bool} {status : FcrStatus}
    {before after : Option EventLog}
    (h : after = before.map fun r => if p r then r.withStatus status else r) :
    Kept before after := by
  subst h
  cases before with
  | none => trivial
  | some r =>
      rw [Option.map_some]
      split
      · exact ⟨rfl, rfl, rfl, rfl⟩
      · exact kept_refl _

/-- Calls of the checker: whatever they do, they do it to `fcr_status`. -/
theorem move_check (hs : s.Coherent lib)
    (hk : s.shared.db.Keyed) (hr : s.running v = some r) (hrest : r.rest = Prog.call o k)
    (hans : s.shared.Answers o x sh) (hjob : r.job = .check) :
    Move s (s.advance v r ⟨o, x⟩ (k x) sh) := by
  have hv : .fcr_checker = v := by simpa [hjob, Job.service] using (hs v r hr).1
  subst hv
  have hallow := hs.running_allows hr hrest
  simp only [Running.Allows, hjob] at hallow
  obtain ⟨hsh, hcl, hih⟩ := s.advance_frame .fcr_checker r ⟨o, x⟩ (k x) sh
  generalize s.advance .fcr_checker r ⟨o, x⟩ (k x) sh = t at *
  replace hcl : ∀ k, t.claimed k = s.claimed k := fun k => hcl k (by simp)
  replace hih : t.inHand = s.inHand := hih (by simp)
  have hrow : ∀ id, t.row? id = sh.db.row? id := fun id => by rw [row?, hsh]
  cases hans with
  | rpc h =>
      exact .quiet (waiting_congr hcl (by rw [hsh])).le (Or.inl hih) fun id => kept_of_eq (hrow id)
  | @db st x db' h =>
      refine .quiet (waiting_congr hcl (by rw [hsh])).le (Or.inl hih) fun id => ?_
      have heff := h.rowEffect hk id
      rw [hrow, row?]
      cases st with
      | claim | insertEventLog | updateStage | incrementRetryCount | deleteEventLog =>
          exact hallow.elim
      | markConfirmed =>
          cases x with
          | error e => exact kept_of_eq heff
          | ok a => exact kept_withStatus heff
      | commit =>
          cases x with
          | error e => exact kept_of_eq heff
          | ok a => exact kept_withStatus heff
      | _ => cases x <;> exact kept_of_eq heff
  | sent h => exact hallow.elim
  | closed => exact hallow.elim

theorem move_call (hs : s.Coherent lib) (hk : s.shared.db.Keyed) (hr : s.running v = some r)
    (hrest : r.rest = Prog.call o k) (hans : s.shared.Answers o x sh) :
    Move s (s.advance v r ⟨o, x⟩ (k x) sh) := by
  cases hjob : r.job with
  | index i last_processed_block => exact move_index hs hk hr hrest hans hjob
  | process j => exact move_process hs hk hr hrest hans hjob
  | send data => exact move_send hs hk hr hrest hans hjob
  | check => exact move_check hs hk hr hrest hans hjob

theorem waiting_le (hcl : ∀ k, t.claimed k = s.claimed k ∨ t.claimed k = none)
    (hch : t.shared.channel = s.shared.channel) : t.waiting ≤ s.waiting := by
  have hone : ∀ k, (t.claimed k).elim 0 (fun row => ({row.claim} : Multiset Claim)) ≤
      (s.claimed k).elim 0 fun row => {row.claim} := by
    intro k
    rcases hcl k with h | h
    · rw [h]
    · rw [h]
      exact Multiset.zero_le _
  unfold waiting
  rw [hch]
  exact add_le_add (add_le_add (hone _) (hone _)) le_rfl

theorem claimed_begin {job : Job} (hidle : s.running job.service = none) (k : ProcessorId) :
    (s.begin lib job).claimed k = s.claimed k := by
  by_cases hv : .processor k = job.service
  · simp [claimed, Sys.begin, hv, hidle, Running.claimed]
  · simp [claimed, Sys.begin, Function.update_of_ne hv]

theorem inHand_begin {job : Job} (hv : .on_chain_sender ≠ job.service) :
    (s.begin lib job).inHand = s.inHand := by
  simp [inHand, Sys.begin, Function.update_of_ne hv]

theorem claimed_done {job : Job} {result : Option Nat} (v : Service) (k : ProcessorId) :
    (s.done v job result).claimed k = s.claimed k ∨ (s.done v job result).claimed k = none := by
  by_cases hv : .processor k = v
  · exact Or.inr (by simp [claimed, Sys.done, hv])
  · exact Or.inl (by simp [claimed, Sys.done, Function.update_of_ne hv])

theorem inHand_done {job : Job} {result : Option Nat} (v : Service) :
    (s.done v job result).inHand = s.inHand ∨ (s.done v job result).inHand = none := by
  by_cases hv : .on_chain_sender = v
  · exact Or.inr (by simp [inHand, Sys.done, ← hv])
  · exact Or.inl (by simp [inHand, Sys.done, Function.update_of_ne hv])

/-- Entering a round takes no claim, except by receiving a message. -/
theorem move_begin {job : Job} (hidle : s.running job.service = none)
    (hv : .on_chain_sender ≠ job.service) : Move s (s.begin lib job) :=
  .quiet (waiting_congr (claimed_begin hidle) rfl).le (Or.inl (inHand_begin hv))
    fun _ => kept_refl _

/-- Without any rounds and messages there are no claims. -/
theorem move_reset (hr : ∀ v, t.running v = none) (hch : t.shared.channel = [])
    (hrow : ∀ id, t.row? id = s.row? id) : Move s t := by
  refine .quiet ?_ (Or.inr (by simp [inHand, hr])) fun id => kept_of_eq (hrow id)
  have hw : t.waiting = 0 := by simp [waiting, claimed, hr, hch]
  rw [hw]
  exact Multiset.zero_le _

/-- **Every step moves claims and rows in one of the six ways.** -/
theorem Step.move {l : Label} (hs : s.Coherent lib) (hk : s.shared.db.Keyed)
    (h : s.Step lib l t) : Move s t := by
  cases h with
  | index hidle => exact move_begin hidle.1 (by simp [Job.service])
  | process hidle hsd => exact move_begin hidle.1 (by simp [Job.service])
  | @recv data rest hidle hch =>
      have hpop : s.popChannel.running (Job.service (.send data)) = none := hidle.1
      refine .recv (?_ : s.waiting = data.claim ::ₘ _) ?_ ?_ fun _ => rfl
      · have hcl : ∀ k, (s.popChannel.begin lib (.send data)).claimed k = s.claimed k :=
          claimed_begin hpop
        have hrest : (s.popChannel.begin lib (.send data)).shared.channel = rest := by
          simp [Sys.begin, popChannel, hch]
        simp only [waiting, hcl, hrest, hch, List.map_cons, ← Multiset.cons_coe]
        rw [Multiset.add_cons]
      · simp [inHand, hidle.1]
      · simp [inHand, Sys.begin, Job.service, Running.inHand]
  | check hidle hfcr => exact move_begin hidle.1 (by simp [Job.service])
  | call hr hrest hans => exact move_call hs hk hr hrest hans
  | finish hr hrest =>
      exact .quiet (waiting_le (claimed_done _) rfl) (inHand_done _) fun _ => kept_refl _
  | panic hr hrest => exact move_reset (fun _ => rfl) rfl fun _ => rfl
  | exit hidle hexit => exact .quiet le_rfl (Or.inl rfl) fun _ => kept_refl _
  | signal => exact .quiet le_rfl (Or.inl rfl) fun _ => kept_refl _
  | tick h => exact .quiet le_rfl (Or.inl rfl) fun _ => kept_refl _
  | restart => exact move_reset (fun _ => rfl) rfl fun _ => rfl

end Sys
/-! ## The invariant -/

namespace Sys

/-- 1 if the row is there and `is_processed = 'true'`, else 0. -/
def processed (s : Sys W) (id : Int) : Nat :=
  (s.row? id).elim 0 fun r => if r.is_processed = some true then 1 else 0

/-- Every claim is backed by a processed row of its own, whose stage and mode
are what the holder believes. -/
structure Owned (s : Sys W) : Prop where
  keyed : s.shared.db.Keyed
  staged : ∀ id r, s.row? id = some r → r.stage ≠ none
  backed : ∀ id, s.held.count id ≤ s.processed id
  fits : ∀ c ∈ s.waiting, ∀ r, s.row? c.id = some r → r.stage = c.stage ∧ r.bridge_mode = c.mode
  inHand_mode : ∀ data, s.inHand = some data → ∀ r, s.row? data.event_log_id = some r →
    r.bridge_mode = data.on_chain_calldata.bridgeMode

variable {s t : Sys W} {id : Int} {c : Claim} {data : SenderData} {r : EventLog}

theorem processed_le_one (s : Sys W) (id : Int) : s.processed id ≤ 1 := by
  unfold processed
  cases s.row? id with
  | none => simp
  | some r =>
      simp only [Option.elim]
      split <;> simp

theorem processed_pos :
    0 < s.processed id ↔ ∃ r, s.row? id = some r ∧ r.is_processed = some true := by
  unfold processed
  cases s.row? id with
  | none => simp
  | some r => by_cases h : r.is_processed = some true <;> simp [h]

theorem mem_held_of_waiting (h : c ∈ s.waiting) : c.id ∈ s.held :=
  Multiset.mem_add.mpr (Or.inl (Multiset.mem_map_of_mem _ h))

theorem mem_held_of_inHand (h : s.inHand = some data) : data.event_log_id ∈ s.held :=
  Multiset.mem_add.mpr (Or.inr (by simp [h]))

/-- A held row exists and is processed. -/
theorem Owned.held_row (h : s.Owned) (hid : id ∈ s.held) :
    ∃ r, s.row? id = some r ∧ r.is_processed = some true :=
  processed_pos.mp (lt_of_lt_of_le (Multiset.count_pos.mpr hid) (h.backed id))

/-- No row has two holders. -/
theorem Owned.nodup (h : s.Owned) : s.held.Nodup :=
  Multiset.nodup_iff_count_le_one.mpr fun id => (h.backed id).trans (s.processed_le_one id)

/-- The sender's row is nobody else's. -/
theorem Owned.exclusive (h : s.Owned) (hc : c ∈ s.waiting) (hd : s.inHand = some data) :
    c.id ≠ data.event_log_id := by
  intro heq
  have hdis := (Multiset.nodup_add.mp h.nodup).2.2
  apply (Multiset.disjoint_left.mp hdis) (Multiset.mem_map_of_mem Claim.id hc)
  simp [hd, heq]

/-- A row nobody has marked as processed is not held. -/
theorem Owned.not_held (h : s.Owned) (hr : s.row? id = some r) (hp : r.is_processed ≠ some true) :
    id ∉ s.held := by
  intro hid
  obtain ⟨r', hr', hp'⟩ := h.held_row hid
  rw [hr] at hr'
  exact hp (Option.some.inj hr' ▸ hp')

theorem processed_congr (h : Kept (s.row? id) (t.row? id)) : t.processed id = s.processed id := by
  unfold processed
  revert h
  cases s.row? id <;> cases t.row? id <;> intro h
  · rfl
  · simp [h.1]
  · exact h.elim
  · simp [h.is_processed]

/-! ## What each move does to it -/

theorem Owned.quiet (h : s.Owned) (hk : t.shared.db.Keyed) (hw : t.waiting ≤ s.waiting)
    (hh : t.inHand = s.inHand ∨ t.inHand = none)
    (hrow : ∀ id, Kept (s.row? id) (t.row? id)) : t.Owned := by
  have hheld : t.held ≤ s.held := by
    apply add_le_add (Multiset.map_le_map hw)
    rcases hh with hh | hh <;> rw [hh]
    exact Multiset.zero_le _
  have hback : ∀ id r', id ∈ s.held → t.row? id = some r' →
      ∃ r, s.row? id = some r ∧ r.Agrees r' := by
    intro id r' hid hr'
    obtain ⟨r, hr, -⟩ := h.held_row hid
    have hkept := hrow id
    rw [hr, hr'] at hkept
    exact ⟨r, hr, hkept⟩
  refine ⟨hk, fun id r' hr' => ?_, fun id => ?_, fun c hc r' hr' => ?_, fun data hd r' hr' => ?_⟩
  · have hkept := hrow id
    rw [hr'] at hkept
    cases hr : s.row? id with
    | none =>
        rw [hr] at hkept
        simp [hkept.2]
    | some r =>
        rw [hr] at hkept
        rw [hkept.stage]
        exact h.staged id r hr
  · rw [processed_congr (hrow id)]
    exact (Multiset.count_le_of_le id hheld).trans (h.backed id)
  · have hc' := Multiset.mem_of_le hw hc
    obtain ⟨r, hr, ha⟩ := hback _ _ (mem_held_of_waiting hc') hr'
    rw [ha.stage, ha.bridge_mode]
    exact h.fits c hc' r hr
  · have hd' : s.inHand = some data := by
      rcases hh with hh | hh
      · rw [← hh, hd]
      · rw [hh] at hd
        cases hd
    obtain ⟨r, hr, ha⟩ := hback _ _ (mem_held_of_inHand hd') hr'
    rw [ha.bridge_mode]
    exact h.inHand_mode data hd' r hr

theorem Owned.claim (h : s.Owned) (hk : t.shared.db.Keyed) {row : EventLogRow}
    (hw : t.waiting = row.claim ::ₘ s.waiting) (hh : t.inHand = s.inHand)
    (hr : s.row? row.id = some r) (hrow : r.toRow = row) (hfree : r.is_processed = some false)
    (hr' : t.row? row.id = some r.claimed)
    (hother : ∀ id, id ≠ row.id → t.row? id = s.row? id) : t.Owned := by
  have hnew : row.id ∉ s.held := h.not_held hr (by simp [hfree])
  have hheld : t.held = row.id ::ₘ s.held := by
    simp [held, hw, hh, EventLogRow.claim]
  have hstage : r.claimed.stage = row.stage ∧ r.claimed.bridge_mode = row.bridge_mode := by
    rw [← hrow]
    exact ⟨rfl, rfl⟩
  refine ⟨hk, fun id r' hid => ?_, fun id => ?_, fun c hc r' hid => ?_, fun data hd r' hid => ?_⟩
  · by_cases heq : id = row.id
    · subst heq
      obtain rfl := Option.some.inj (hid.symm.trans hr')
      exact h.staged row.id r hr
    · exact h.staged id r' ((hother id heq).symm.trans hid)
  · rw [hheld]
    by_cases heq : id = row.id
    · subst heq
      rw [Multiset.count_cons_self, Multiset.count_eq_zero.mpr hnew]
      exact processed_pos.mpr ⟨_, hr', rfl⟩
    · rw [Multiset.count_cons_of_ne heq]
      simpa [processed, hother id heq] using h.backed id
  · rw [hw] at hc
    rcases Multiset.mem_cons.mp hc with rfl | hc
    · obtain rfl := Option.some.inj (hid.symm.trans hr')
      exact hstage
    · have hne : c.id ≠ row.id := fun heq => hnew (heq ▸ mem_held_of_waiting hc)
      exact h.fits c hc r' ((hother _ hne).symm.trans hid)
  · rw [hh] at hd
    have hne : data.event_log_id ≠ row.id := fun heq => hnew (heq ▸ mem_held_of_inHand hd)
    exact h.inHand_mode data hd r' ((hother _ hne).symm.trans hid)

theorem Owned.handOver (h : s.Owned) (hk : t.shared.db.Keyed) {row : EventLogRow}
    {rest : Multiset Claim} (hw : s.waiting = row.claim ::ₘ rest)
    (hw' : t.waiting = data.claim ::ₘ rest) (hd : row.HandedOverAs data)
    (hh : t.inHand = s.inHand) (hrow : ∀ id, t.row? id = s.row? id) : t.Owned := by
  have hheld : t.held = s.held := by
    simp [held, hw, hw', hh, EventLogRow.claim, SenderData.claim, hd.id]
  refine ⟨hk, fun id r' hr' => h.staged id r' (hrow id ▸ hr'), fun id => ?_,
    fun c hc r' hr' => ?_, fun d hd' r' hr' => h.inHand_mode d (hh ▸ hd') r' (hrow _ ▸ hr')⟩
  · rw [hheld]
    simpa [processed, hrow id] using h.backed id
  · rw [hrow] at hr'
    rw [hw'] at hc
    rcases Multiset.mem_cons.mp hc with rfl | hc
    · have hid : data.claim.id = row.claim.id := hd.id
      rw [hid] at hr'
      have hfit := h.fits row.claim (hw ▸ Multiset.mem_cons_self _ _) r' hr'
      have hstage := h.staged _ r' hr'
      rw [hfit.1] at hstage ⊢
      obtain ⟨stage, hst⟩ := Option.ne_none_iff_exists'.mp hstage
      have hst' : row.stage = some stage := hst
      refine ⟨?_, ?_⟩
      · simp [EventLogRow.claim, SenderData.claim, hd.stage, hst']
      · rw [hfit.2]
        exact hd.mode.symm
    · exact h.fits c (hw ▸ Multiset.mem_cons_of_mem hc) r' hr'

theorem Owned.recv (h : s.Owned) (hk : t.shared.db.Keyed)
    (hw : s.waiting = data.claim ::ₘ t.waiting) (hh : s.inHand = none)
    (hh' : t.inHand = some data) (hrow : ∀ id, t.row? id = s.row? id) : t.Owned := by
  have hheld : t.held = s.held := by
    simp [held, hw, hh, hh', SenderData.claim, add_comm, Multiset.singleton_add]
  refine ⟨hk, fun id r' hr' => h.staged id r' (hrow id ▸ hr'), fun id => ?_,
    fun c hc r' hr' => ?_, fun d hd r' hr' => ?_⟩
  · rw [hheld]
    simpa [processed, hrow id] using h.backed id
  · exact h.fits c (hw ▸ Multiset.mem_cons_of_mem hc) r' (hrow _ ▸ hr')
  · obtain rfl := Option.some.inj (hh'.symm.trans hd)
    rw [hrow] at hr'
    exact (h.fits data.claim (hw ▸ Multiset.mem_cons_self _ _) r' hr').2

theorem Owned.stage (h : s.Owned) (hk : t.shared.db.Keyed) (hw : t.waiting = s.waiting)
    (hh : s.inHand = some data) (hh' : t.inHand = some data)
    (hrow : t.row? data.event_log_id =
      (s.row? data.event_log_id).map (EventLog.withStage .foreign))
    (hother : ∀ id, id ≠ data.event_log_id → t.row? id = s.row? id) : t.Owned := by
  obtain ⟨r, hr, hp⟩ := h.held_row (mem_held_of_inHand hh)
  rw [hr, Option.map_some] at hrow
  have hheld : t.held = s.held := by simp [held, hw, hh, hh']
  refine ⟨hk, fun id r' hid => ?_, fun id => ?_, fun c hc r' hid => ?_, fun d hd r' hid => ?_⟩
  · by_cases heq : id = data.event_log_id
    · subst heq
      obtain rfl := Option.some.inj (hid.symm.trans hrow)
      simp
    · exact h.staged id r' ((hother id heq).symm.trans hid)
  · rw [hheld]
    refine (h.backed id).trans (le_of_eq ?_)
    by_cases heq : id = data.event_log_id
    · subst heq
      simp [processed, hr, hrow]
    · simp [processed, hother id heq]
  · rw [hw] at hc
    exact h.fits c hc r' ((hother _ (h.exclusive hc hh)).symm.trans hid)
  · obtain rfl := Option.some.inj (hh'.symm.trans hd)
    obtain rfl := Option.some.inj (hid.symm.trans hrow)
    exact h.inHand_mode data hh r hr

theorem Owned.settle (h : s.Owned) (hk : t.shared.db.Keyed) (hw : t.waiting = s.waiting)
    (hh : s.inHand = some data) (hh' : t.inHand = none)
    (hrow : t.row? data.event_log_id = none ∨
      t.row? data.event_log_id = (s.row? data.event_log_id).map EventLog.released)
    (hother : ∀ id, id ≠ data.event_log_id → t.row? id = s.row? id) : t.Owned := by
  have hheld : t.held = s.waiting.map Claim.id := by simp [held, hw, hh']
  have hnot : data.event_log_id ∉ t.held := by
    rw [hheld]
    intro hmem
    obtain ⟨c, hc, hid⟩ := Multiset.mem_map.mp hmem
    exact h.exclusive hc hh hid
  refine ⟨hk, fun id r' hid => ?_, fun id => ?_, fun c hc r' hid => ?_,
    fun d hd => by rw [hh'] at hd; cases hd⟩
  · by_cases heq : id = data.event_log_id
    · subst heq
      rcases hrow with hrow | hrow
      · rw [hrow] at hid
        cases hid
      · rw [hrow] at hid
        obtain ⟨r, hr, rfl⟩ := Option.map_eq_some_iff.mp hid
        exact h.staged _ r hr
    · exact h.staged id r' ((hother id heq).symm.trans hid)
  · by_cases heq : id = data.event_log_id
    · subst heq
      rw [Multiset.count_eq_zero.mpr hnot]
      exact Nat.zero_le _
    · have hback := h.backed id
      rw [hheld]
      rw [held, Multiset.count_add] at hback
      simpa [processed, hother id heq] using Nat.le_of_add_right_le hback
  · rw [hw] at hc
    exact h.fits c hc r' ((hother _ (h.exclusive hc hh)).symm.trans hid)

/-- Ids stay a primary key. -/
theorem Step.keyed {l : Label} (hk : s.shared.db.Keyed) (h : s.Step lib l t) :
    t.shared.db.Keyed := by
  cases h with
  | call hr hrest hans =>
      cases hans with
      | db h => exact (h.keyed hk).1
      | _ => exact hk
  | _ => exact ⟨hk.nodup, hk.lt_next⟩

/-- Ids that have been drawn stay drawn. -/
theorem Step.next_id_le {l : Label} (hk : s.shared.db.Keyed) (h : s.Step lib l t) :
    s.shared.db.next_id ≤ t.shared.db.next_id := by
  cases h with
  | call hr hrest hans =>
      cases hans with
      | db h => exact (h.keyed hk).2
      | _ => exact le_refl _
  | _ => exact le_refl _

/-- What a step makes of a row. -/
theorem Step.rowMove {l : Label} (hk : s.shared.db.Keyed) (h : s.Step lib l t) (id : Int) :
    t.row? id = s.row? id ∨ ∃ v st x, l = .call v ⟨.db st, x⟩ ∧
      s.shared.db.Answers st x t.shared.db ∧ st.RowMove s.shared.db id x (t.row? id) := by
  cases h with
  | @call v _ _ _ _ _ hr hrest hans =>
      cases hans with
      | @db st x db' hans => exact Or.inr ⟨v, st, x, rfl, hans, (hans.rowEffect hk id).move⟩
      | _ => exact Or.inl rfl
  | _ => exact Or.inl rfl

/-- A row of a known id stays the log it is. -/
theorem Step.sameLog {l : Label} {id : Int} {r' : EventLog} (hk : s.shared.db.Keyed)
    (h : s.Step lib l t) (hid : id < s.shared.db.next_id) (hr' : t.row? id = some r') :
    ∃ r, s.row? id = some r ∧ r.SameLog r' := by
  rcases h.rowMove hk id with hsame | ⟨v, st, x, -, hans, -⟩
  · exact ⟨r', hsame.symm.trans hr', .refl⟩
  · exact (hans.rowEffect hk id).sameLog hid hr'

/-- A row is a log that was there, or one that has just been inserted. -/
theorem Step.origin {l : Label} {id : Int} {r' : EventLog} (hk : s.shared.db.Keyed)
    (h : s.Step lib l t) (hr' : t.row? id = some r') :
    (∃ r, s.row? id = some r ∧ r.SameLog r') ∨
      ∃ v n, l = .call v ⟨.db (.insertEventLog n), .ok 1⟩ ∧ r' = n.toRow id := by
  rcases h.rowMove hk id with hsame | ⟨v, st, x, rfl, hans, -⟩
  · exact Or.inl ⟨r', hsame.symm.trans hr', .refl⟩
  · rcases (hans.rowEffect hk id).origin hr' with hold | ⟨n, rfl, rfl, hnew⟩
    · exact Or.inl hold
    · have hunchanged : t.shared.db.row? s.shared.db.next_id = s.row? s.shared.db.next_id →
          ∃ r, s.row? s.shared.db.next_id = some r ∧ r.SameLog r' :=
        fun heq => ⟨r', heq.symm.trans hr', .refl⟩
      cases x with
      | error e => exact Or.inl (hunchanged (hans.rowEffect hk _))
      | ok k =>
          rcases hans with ⟨-, skip, hexec⟩ | ⟨-, -, e, hx⟩
          · rcases hk.row?_insert hexec with ⟨-, -, hrow⟩ | ⟨rfl, -, -, -⟩
            · exact Or.inl (hunchanged (hrow _))
            · exact Or.inr ⟨v, n, rfl, hnew⟩
          · cases hx

theorem Owned.step {l : Label} (hs : s.Coherent lib) (h : s.Owned) (hstep : s.Step lib l t) :
    t.Owned := by
  have hk := hstep.keyed h.keyed
  cases hstep.move hs h.keyed with
  | quiet hw hh hrow => exact h.quiet hk hw hh hrow
  | claim hw hh hr hrow hfree hr' hother => exact h.claim hk hw hh hr hrow hfree hr' hother
  | handOver hw hw' hd hh hrow => exact h.handOver hk hw hw' hd hh hrow
  | recv hw hh hh' hrow => exact h.recv hk hw hh hh' hrow
  | stage hw hh hh' hrow hother => exact h.stage hk hw hh hh' hrow hother
  | settle hw hh hh' hrow hother => exact h.settle hk hw hh hh' hrow hother

/-- Nothing is held when the process starts, whatever is in the table. -/
theorem owned_over {cfg : Config} {db : Db} {w : W.State} (hk : db.Keyed)
    (hstaged : ∀ r ∈ db.event_logs, r.stage ≠ none) : (boot cfg db w).Owned where
  keyed := hk
  staged _ r h := hstaged r (Db.row?_mem h)
  backed id := by simp [held, waiting, inHand, boot, claimed]
  fits c hc := by simp [waiting, boot, claimed] at hc
  inHand_mode _ h := by cases h

theorem owned_boot {cfg : Config} {w : W.State} : (boot cfg Db.empty w).Owned := by
  refine owned_over Db.keyed_empty fun r hr => ?_
  cases hr

end Sys

/-- **The ownership invariant holds in every reachable state.** -/
theorem owned_of_reachable {s : Sys W} (h : (system lib W).Reachable s) : s.Owned := by
  refine h.invariant ?_ ?_
  · rintro s ⟨cfg, w, -, rfl⟩
    exact Sys.owned_boot
  · intro s l t hreach hs hstep
    exact hs.step (coherent_of_reachable hreach) hstep

/-! ## Exclusive ownership -/

/-- The row that a statement by id is about. -/
def Stmt.writesTo : Stmt → Option Int
  | .updateStage _ id => some id
  | .incrementRetryCount id => some id
  | .deleteEventLog id => some id
  | _ => none

/-- The row of `id` is deleted, or put back with another retry count. -/
def Sys.GivenUp (s t : Sys W) (id : Int) : Prop :=
  ∃ r, s.row? id = some r ∧ ∀ r', t.row? id = some r' →
    (r.is_processed = some true ∧ r'.is_processed ≠ some true) ∨ r'.retry_count ≠ r.retry_count

/-- What exclusive ownership means in one state and for the next step. -/
structure Sys.ExclusiveOwnership (lib : Externals) (s : Sys W) : Prop where
  /-- no row has two holders -/
  at_most_one : s.held.Nodup
  /-- a held row exists and has `is_processed = 'true'` -/
  processed : ∀ id ∈ s.held,
    ∃ r ∈ s.shared.db.event_logs, r.id = id ∧ r.is_processed = some true
  /-- only its holder issues a DELETE or a release of a row -/
  statement : ∀ v id x t,
    s.Step lib (.call v ⟨.db (.deleteEventLog id), x⟩) t ∨
      s.Step lib (.call v ⟨.db (.incrementRetryCount id), x⟩) t →
    v = .on_chain_sender ∧ ∃ data, s.inHand = some data ∧ data.event_log_id = id
  /-- and in no other way is a row given up -/
  effect : ∀ l t id, s.Step lib l t → s.GivenUp t id →
    ∃ data, s.inHand = some data ∧ data.event_log_id = id
  /-- the message the sender starts on carries the stage of its row -/
  stage : ∀ data t, s.Step lib (.start (.send data)) t →
    ∃ r ∈ s.shared.db.event_logs, r.id = data.event_log_id ∧ r.stage = some data.stage

theorem Move.givenUp {s t : Sys W} {id : Int} (h : Move s t) (hg : s.GivenUp t id) :
    ∃ data, s.inHand = some data ∧ data.event_log_id = id := by
  obtain ⟨r, hr, hg⟩ := hg
  have hsame : t.row? id ≠ s.row? id := by
    intro heq
    rcases hg r (heq.trans hr) with ⟨h₁, h₂⟩ | h₃
    · exact h₂ h₁
    · exact h₃ rfl
  cases h with
  | quiet hw hh hrow =>
      have hkept := hrow id
      rw [hr] at hkept
      cases hr' : t.row? id with
      | none =>
          rw [hr'] at hkept
          exact hkept.elim
      | some r' =>
          rw [hr'] at hkept
          rcases hg r' hr' with ⟨h₁, h₂⟩ | h₃
          · exact absurd (hkept.is_processed.trans h₁) h₂
          · exact absurd hkept.retry_count h₃
  | @claim row r₀ hw hh hr₀ hrow hfree hr' hother =>
      by_cases heq : id = row.id
      · subst heq
        obtain rfl := Option.some.inj (hr.symm.trans hr₀)
        rcases hg _ hr' with ⟨h₁, -⟩ | h₃
        · rw [hfree] at h₁
          cases h₁
        · exact absurd rfl h₃
      · exact absurd (hother id heq) hsame
  | handOver hw hw' hd hh hrow => exact absurd (hrow id) hsame
  | recv hw hh hh' hrow => exact absurd (hrow id) hsame
  | @stage data hw hh hh' hrow hother =>
      by_cases heq : id = data.event_log_id
      · exact ⟨data, hh, heq.symm⟩
      · exact absurd (hother id heq) hsame
  | @settle data hw hh hh' hrow hother =>
      by_cases heq : id = data.event_log_id
      · exact ⟨data, hh, heq.symm⟩
      · exact absurd (hother id heq) hsame

namespace Sys

variable {s t : Sys W}

/-- The sender writes to the row it has in hand, and nobody else does. -/
theorem holder_of_statement {v : Service} {st : Stmt} {id : Int} {x : Except String st.Ret}
    (hs : s.Coherent lib) (hst : st.writesTo = some id)
    (h : s.Step lib (.call v ⟨.db st, x⟩) t) :
    v = .on_chain_sender ∧ ∃ data, s.inHand = some data ∧ data.event_log_id = id := by
  cases h with
  | @call _ r _ k _ sh hr hrest hans =>
      have hsender : (Op.db st).bySender = true := by
        cases st <;> first | rfl | cases hst
      obtain ⟨rfl, data, hjob, hallow⟩ := hs.sender_allows hr hrest hsender
      have hopen : (OnChainSender.protocol data.event_log_id).after false r.trace = false ∧
          data.event_log_id = id := by
        cases st with
        | updateStage stage id' => exact ⟨hallow.1, hallow.2.1.symm.trans (Option.some.inj hst)⟩
        | incrementRetryCount id' => exact ⟨hallow.1, hallow.2.symm.trans (Option.some.inj hst)⟩
        | deleteEventLog id' => exact ⟨hallow.1, hallow.2.symm.trans (Option.some.inj hst)⟩
        | _ => cases hst
      refine ⟨rfl, data, ?_, hopen.2⟩
      simp [inHand, hr, Running.inHand, hjob, hopen.1]

end Sys

/-- **Exclusive ownership**: in every reachable state of the combined system,
whatever the interleaving and the answers. -/
theorem exclusive_ownership {s : Sys W} (h : (system lib W).Reachable s) :
    s.ExclusiveOwnership lib := by
  have hs := coherent_of_reachable h
  have howned := owned_of_reachable h
  refine ⟨howned.nodup, fun id hid => ?_, ?_, fun l t id hstep hg => ?_, fun data t hstep => ?_⟩
  · obtain ⟨r, hr, hp⟩ := howned.held_row hid
    exact ⟨r, Db.row?_mem hr, Db.row?_id hr, hp⟩
  · rintro v id x t (hstep | hstep)
    · exact Sys.holder_of_statement hs rfl hstep
    · exact Sys.holder_of_statement hs rfl hstep
  · exact (hstep.move hs howned.keyed).givenUp hg
  · cases hstep with
    | recv hidle hch =>
        have hmem : data.claim ∈ s.waiting := by simp [Sys.waiting, hch]
        obtain ⟨r, hr, -⟩ := howned.held_row (Sys.mem_held_of_waiting hmem)
        exact ⟨r, Db.row?_mem hr, Db.row?_id hr, (howned.fits _ hmem r hr).1⟩

/-- A state with a message in the channel. -/
theorem exclusive_ownership_of_queued :
    ∃ s : Sys World.any, 1 ∈ s.held ∧ s.ExclusiveOwnership Deployment.externals := by
  have hboot : (Sys.boot Deployment.config Db.empty () : Sys World.any).Resting :=
    Sys.resting_boot
  obtain ⟨ls, s, hrun, -, hp⟩ := Turn.exists_of_playAll
    [.index .ETHAmb (Deployment.lookups (.repeatByte 32 0xaa)),
      .process .msg_processor_1 (Deployment.lookups (.repeatByte 32 0xaa))]
    (fun q => q.2.shared.channel.any fun data => data.event_log_id == 1)
    Turn.sound_any hboot
    (show (Turn.playAll Deployment.externals _ _).any _ = true by decide +kernel)
  simp only [List.any_eq_true, beq_iff_eq] at hp
  obtain ⟨data, hmem, hid⟩ := hp
  have hwaiting : data.claim ∈ s.waiting := by
    simp only [Sys.waiting, Multiset.mem_add, Multiset.mem_coe, List.mem_map]
    exact Or.inr ⟨data, hmem, rfl⟩
  refine ⟨s, ?_, exclusive_ownership ⟨_, ls, ⟨Deployment.config, (), trivial, rfl⟩, hrun⟩⟩
  exact hid ▸ Sys.mem_held_of_waiting hwaiting

end BridgeValidator
