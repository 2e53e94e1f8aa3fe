import BridgeValidator.Ownership
import BridgeValidator.Rounds

/-!
# The audit trail

The checker's transaction, statement by statement: it selects and locks the rows
of a block, writes an audit row for each of them, and marks as reverted whatever
matches the block by then. A row that is inserted in between is marked and has no
audit row. As long as the UPDATE matches locked rows only, the audit trail names
exactly the rows that have ever been reverted.
-/

namespace BridgeValidator

open Interaction

variable {W : World} {lib : Externals} {cfg : Config}

/-! ## The order of the statements -/

namespace FcrChecker

/-- How far the transaction has come; `todo` are the ids of the selected rows that
have no audit row yet. -/
inductive Phase where
  | closed
  | begun
  | auditing (modes : List BridgeMode) (block_number : Int) (block_hash : String)
      (todo : List Int)
  | marked

def Phase.after (p : Phase) : (o : Op) → o.Ans → Phase
  | .db .begin, .ok _ => .begun
  | .db (.selectAffected modes n h), .ok rows => .auditing modes n h (rows.map fun r => r.1)
  | .db (.insertFalsePositive _), .ok _ => match p with
      | .auditing modes n h todo => .auditing modes n h todo.tail
      | p => p
  | .db (.markReverted ..), .ok _ => .marked
  | .db .commit, .ok _ => .closed
  | .db .rollback, _ => .closed
  | _, _ => p

/-- The statements of the transaction come in order, and no others in between. -/
def auditing : Protocol Calls Phase where
  allows p
    | .rpc (.send ..) => False
    | .rpc _ => True
    | .db st => match st with
      | .countPending _ | .selectPendingBlocks .. | .countUnverifiable .. => True
      | .markConfirmed .. | .begin => p = .closed
      | .selectAffected .. => p = .begun
      | .insertFalsePositive row =>
          ∃ modes n h todo, p = .auditing modes n h (row.event_log_id :: todo)
      | .markReverted modes n h => p = .auditing modes n h []
      | .commit => p = .marked
      | .rollback => True
      | _ => False
    | .channelSend _ => False
  admits _ _ _ := True
  next := Phase.after

theorem auditing_ignoresLookups : IgnoresLookups auditing where
  beacon _ _ := ⟨trivial, fun _ => rfl⟩
  el _ _ _ := ⟨trivial, fun _ => rfl⟩

variable {chain : Chain} {el_rpcs : List String} {finalized_block : Int}

/-- A verdict is a matter of lookups. -/
theorem quiet_verdictFor {σ : Type} {P : Protocol Calls σ} {g : σ} (hP : IgnoresLookups P)
    (el_rpcs : List String) (block : PendingBlock) :
    Act.Follows P g (verdictFor el_rpcs block) (Quiet g) := by
  have hwalk : ∀ any_provider_answered, Act.Follows P g
      (hashFromElRpcs block.block_number any_provider_answered el_rpcs) (Quiet g) := by
    induction el_rpcs with
    | nil =>
        intro any_provider_answered
        cases any_provider_answered <;> rfl
    | cons el_rpc rest ih =>
        intro any_provider_answered
        refine Act.follows_bind.mpr (follows_await.mpr ⟨(hP.el g el_rpc _).1, fun x _ => ?_⟩)
        rw [(hP.el g el_rpc _).2]
        cases hx : readHashAnswer x with
        | failed => simpa only [hx] using ih any_provider_answered
        | noHash => simpa only [hx] using ih true
        | hash h =>
            simp only [hx]
            rfl
  refine Act.follows_bind.mpr (Act.follows_attempt.mpr ((hwalk false).mono ?_))
  rintro g' ((e | m) | (_ | canonical)) hquiet
  · exact hquiet
  · exact hquiet
  · exact hquiet
  · exact Act.follows_ite.mpr ⟨fun _ => hquiet, fun _ => hquiet⟩

/-- All selected rows get their audit row, unless an INSERT fails. -/
theorem auditing_insertFalsePositives {block : PendingBlock} {canonical_block_hash : Option String}
    {modes : List BridgeMode} {n : Int} {h : String}
    (affected : List (Int × Option String × Option Int)) :
    Act.Follows auditing (.auditing modes n h (affected.map fun r => r.1))
      (insertFalsePositives chain block canonical_block_hash finalized_block affected)
      fun p r => match r with
        | .ok _ => p = .auditing modes n h []
        | .error (.error _) => True
        | .error (.panic _) => False := by
  induction affected with
  | nil => rfl
  | cons row rest ih =>
      obtain ⟨event_log_id, transaction_hash, log_index⟩ := row
      refine Act.follows_bind.mpr (follows_sql.mpr ⟨⟨modes, n, h, _, rfl⟩, fun _ _ => ?_, ?_⟩)
      · exact ih
      · intro e _
        trivial

/-- The transaction is over in any case. -/
theorem auditing_recordFalsePositive {block : PendingBlock}
    {canonical_block_hash : Option String} :
    Act.Follows auditing .closed (recordFalsePositive chain block canonical_block_hash
      finalized_block) (Quiet .closed) := by
  refine Act.follows_bind.mpr (follows_sql.mpr ⟨rfl, fun _ _ => ?_, fun _ _ => rfl⟩)
  -- an error of the body, from any phase, rolls back
  have hrollback : ∀ (p : Phase) (e : BridgeValidatorError), Act.Follows auditing p
      (do let _ ← await (.db .rollback)
          Act.throw e : Action Unit) (Quiet .closed) := by
    intro p e
    exact Act.follows_bind.mpr (follows_await.mpr ⟨trivial, fun _ _ => rfl⟩)
  refine Act.follows_bind.mpr (Act.follows_attempt.mpr ?_)
  refine Act.follows_bind.mpr (follows_sql.mpr ⟨rfl, fun affected _ => ?_, ?_⟩)
  · refine Act.follows_bind.mpr ((auditing_insertFalsePositives affected).mono ?_)
    rintro p ((e | m) | a) haudited
    · exact hrollback p e
    · exact haudited.elim
    · obtain rfl : p = _ := haudited
      refine Act.follows_bind.mpr (follows_sql.mpr ⟨rfl, fun _ _ => ?_, fun _ _ => hrollback _ _⟩)
      exact follows_sql.mpr ⟨rfl, fun _ _ => rfl, fun _ _ => hrollback _ _⟩
  · intro e _
    exact hrollback _ _

theorem auditing_adjudicateAll (pending : List PendingBlock) :
    Act.Follows auditing .closed (adjudicateAll chain el_rpcs finalized_block pending)
      (Quiet .closed) := by
  induction pending with
  | nil => rfl
  | cons block rest ih =>
      refine Act.follows_bind.mpr (Act.follows_bind.mpr
        ((quiet_verdictFor auditing_ignoresLookups el_rpcs block).mono ?_))
      rintro p ((e | m) | _ | canonical_block_hash | _) hquiet
      · exact hquiet
      · exact hquiet.elim
      · obtain rfl : p = .closed := hquiet
        exact Act.follows_bind.mpr (follows_sql.mpr ⟨rfl, fun _ _ => ih, fun _ _ => rfl⟩)
      · obtain rfl : p = .closed := hquiet
        apply auditing_recordFalsePositive.mono
        rintro p ((e | m) | a) hquiet
        · exact hquiet
        · exact hquiet.elim
        · obtain rfl : p = .closed := hquiet
          exact ih
      · obtain rfl : p = .closed := hquiet
        exact ih

theorem auditing_cycle : Act.Follows auditing .closed (cycle cfg) (Quiet .closed) := by
  have hchain : ∀ c : Chain × List String,
      Act.Follows auditing .closed (checkChain cfg c.1 c.2) (Quiet .closed) := by
    intro c
    refine Act.follows_bind.mpr
      ((follows_getFinalizedBlockNumber (auditing_ignoresLookups.at _ _)).mono ?_)
    rintro p ((e | m) | finalized_block) hquiet
    · exact hquiet
    · exact hquiet.elim
    · obtain rfl : p = .closed := hquiet
      simp only [reportBacklog, pendingBlocks, Act.follows_bind, follows_sql]
      exact ⟨trivial, fun _ _ => ⟨trivial, fun _ _ => ⟨trivial,
        fun _ _ => auditing_adjudicateAll _, fun _ _ => rfl⟩, fun _ _ => rfl⟩, fun _ _ => rfl⟩
  unfold cycle
  induction cfg.fcrChains with
  | nil => rfl
  | cons c rest ih =>
      refine Act.follows_bind.mpr (Act.follows_attempt.mpr ((hchain c).mono ?_))
      rintro p ((e | m) | a) hquiet
      · obtain rfl : p = .closed := hquiet
        exact ih
      · exact hquiet
      · obtain rfl : p = .closed := hquiet
        exact ih

end FcrChecker

/-! ## The statements of the checker and those of the others -/

/-- What only the checker sends. -/
def Stmt.byChecker : Stmt → Bool
  | .markConfirmed .. | .begin | .selectAffected .. | .insertFalsePositive _ | .markReverted ..
  | .commit | .rollback => true
  | _ => false

section

variable {db db' : Db} {st : Stmt} {x : Except String st.Ret} {id : Int} {r r' : EventLog}

theorem EventLog.SameLog.isPendingAt (h : r.SameLog r') (hstatus : r'.fcr_status = r.fcr_status)
    (modes : List BridgeMode) (n : Int) (b : String) :
    r'.isPendingAt modes n b = r.isPendingAt modes n b := by
  simp only [EventLog.isPendingAt, EventLog.isPendingOf, h.bridge_mode, hstatus, h.block_number,
    h.block_hash]

/-- The others leave the transaction and the audit trail alone. -/
theorem Db.Answers.tx_eq (h : db.Answers st x db') (hst : st.byChecker = false) :
    db'.tx = db.tx ∧ db'.fcr_false_positives = db.fcr_false_positives := by
  rcases h with ⟨-, skip, hexec⟩ | ⟨-, rfl, -⟩
  · obtain ⟨rfl, rfl⟩ := Prod.mk.inj hexec.symm
    cases st with
    | claim max =>
        simp only [Db.claim]
        split <;> exact ⟨rfl, rfl⟩
    | insertEventLog n =>
        simp only [Db.insertEventLog]
        split
        · split <;> exact ⟨rfl, rfl⟩
        · exact ⟨rfl, rfl⟩
    | incrementRetryCount id' =>
        simp only [Db.incrementRetryCount]
        split <;> exact ⟨rfl, rfl⟩
    | updateStage _ _ | deleteEventLog _ | countPending _ | selectPendingBlocks _ _
    | countUnverifiable _ _ => exact ⟨rfl, rfl⟩
    | _ => cases hst
  · exact ⟨rfl, rfl⟩

/-- And the rows the transaction has locked stay what they are for the checker. -/
theorem Db.Answers.locked_row (hk : db.Keyed) (h : db.Answers st x db')
    (hst : st.byChecker = false) (hid : id ∈ db.locked) (hr : db.row? id = some r) :
    ∃ r', db'.row? id = some r' ∧ r.SameLog r' ∧ r'.fcr_status = r.fcr_status := by
  have hmove := (h.rowEffect hk id).move
  generalize hafter : db'.row? id = after at hmove
  cases hmove with
  | same => exact ⟨r, hr, .refl, rfl⟩
  | inserted hnew => exact absurd hnew (hk.lt_next_of_row? hr).ne
  | deleted =>
      -- a DELETE of a locked row waits
      rcases h with ⟨hblocked, -⟩ | ⟨-, -, e, hx⟩
      · exact absurd hid (of_decide_eq_false hblocked)
      · cases hx
  | claimed hr' | staged hr' | released hr' =>
      obtain rfl := Option.some.inj (hr.symm.trans hr')
      exact ⟨_, rfl, ⟨rfl, rfl, rfl, rfl, rfl, rfl⟩, rfl⟩
  | confirmed _ _ | reverted _ _ => cases hst

end

/-! ## What the open transaction has done -/

namespace FcrChecker

/-- The contents of the transaction in each phase. -/
def Phase.Holds (db : Db) : Phase → Prop
  | .closed => db.tx = none
  | .begun => db.tx = some ⟨[], [], []⟩
  | .auditing modes n h todo => ∃ tx, db.tx = some tx ∧ tx.reverted = [] ∧
      tx.locked = tx.inserted.map FalsePositive.event_log_id ++ todo ∧ tx.locked.Nodup ∧
      ∀ id ∈ tx.locked, ∃ r, db.row? id = some r ∧ r.isPendingAt modes n h = true
  | .marked => ∃ tx, db.tx = some tx ∧ (tx.inserted.map FalsePositive.event_log_id).Nodup ∧
      (∀ id, id ∈ tx.reverted ↔ id ∈ tx.inserted.map FalsePositive.event_log_id) ∧
      ∀ id ∈ tx.reverted, id ∈ tx.locked ∧
        ∃ r, db.row? id = some r ∧ r.fcr_status = some .pending

variable {db db' : Db} {st : Stmt} {x : Except String st.Ret} {p : Phase}

/-- The others keep what the transaction relies on. -/
theorem Phase.Holds.others (h : p.Holds db) (hk : db.Keyed) (hans : db.Answers st x db')
    (hst : st.byChecker = false) : p.Holds db' := by
  obtain ⟨htx, -⟩ := hans.tx_eq hst
  have hlocked : ∀ tx, db.tx = some tx → ∀ id ∈ tx.locked, ∀ r, db.row? id = some r →
      ∃ r', db'.row? id = some r' ∧ r.SameLog r' ∧ r'.fcr_status = r.fcr_status := by
    intro tx htx id hid r hr
    refine hans.locked_row hk hst ?_ hr
    rw [Db.locked, htx]
    exact hid
  cases p with
  | closed => exact htx.trans h
  | begun => exact htx.trans h
  | auditing modes n b todo =>
      obtain ⟨tx, htx', hrev, heq, hnodup, hrows⟩ := h
      refine ⟨tx, htx.trans htx', hrev, heq, hnodup, fun id hid => ?_⟩
      obtain ⟨r, hr, hpending⟩ := hrows id hid
      obtain ⟨r', hr', hsame, hstatus⟩ := hlocked tx htx' id hid r hr
      exact ⟨r', hr', (hsame.isPendingAt hstatus modes n b).trans hpending⟩
  | marked =>
      obtain ⟨tx, htx', hnodup, hiff, hrows⟩ := h
      refine ⟨tx, htx.trans htx', hnodup, hiff, fun id hid => ?_⟩
      obtain ⟨hlock, r, hr, hpending⟩ := hrows id hid
      obtain ⟨r', hr', -, hstatus⟩ := hlocked tx htx' id hlock r hr
      exact ⟨hlock, r', hr', hstatus.trans hpending⟩

/-- The UPDATE matches locked rows only. -/
def MarksLocked (db : Db) : Stmt → Prop
  | .markReverted modes n h => ∀ r ∈ db.affected modes n h, r.id ∈ db.locked
  | _ => True

/-- A statement of the checker, in its place. -/
theorem Phase.Holds.step (h : p.Holds db) (hk : db.Keyed) (hans : db.Answers st x db')
    (hallow : FcrChecker.auditing.allows p (.db st)) (hst : st.byChecker = true)
    (hlocked : MarksLocked db st) : (p.after (.db st) x).Holds db' := by
  rcases hans with ⟨-, skip, hexec⟩ | ⟨hfail, rfl, e, rfl⟩
  · obtain ⟨rfl, rfl⟩ := Prod.mk.inj hexec.symm
    cases st with
    | markConfirmed modes n b =>
        obtain rfl : p = .closed := hallow
        exact h
    | begin => rfl
    | selectAffected modes n b =>
        obtain rfl : p = .begun := hallow
        have htx : db.tx = some ⟨[], [], []⟩ := h
        have hids : ((db.affected modes n b).map fun r =>
            (r.id, r.transaction_hash, r.log_index)).map (fun r => r.1) =
            (db.affected modes n b).map EventLog.id := by
          rw [List.map_map]
          rfl
        simp only [Db.selectAffected, htx, Phase.after, hids]
        refine ⟨_, rfl, rfl, rfl, ?_, fun id hid => ?_⟩
        · exact (List.Sublist.map _ List.filter_sublist).nodup hk.nodup
        · obtain ⟨r, hr, rfl⟩ := List.mem_map.mp hid
          obtain ⟨hmem, hpending⟩ := List.mem_filter.mp hr
          exact ⟨r, hk.row?_of_mem hmem, hpending⟩
    | insertFalsePositive row =>
        obtain ⟨modes, n, b, todo, rfl⟩ := hallow
        obtain ⟨tx, htx, hrev, heq, hnodup, hrows⟩ := h
        simp only [Db.insertFalsePositive, htx, Phase.after]
        refine ⟨_, rfl, hrev, ?_, hnodup, hrows⟩
        rw [heq, List.map_append, List.append_assoc]
        rfl
    | markReverted modes n b =>
        obtain rfl : p = .auditing modes n b [] := hallow
        obtain ⟨tx, htx, hrev, heq, hnodup, hrows⟩ := h
        rw [List.append_nil] at heq
        simp only [Db.markReverted, htx, Phase.after]
        have hiff : ∀ id, id ∈ (db.affected modes n b).map EventLog.id ↔ id ∈ tx.locked := by
          intro id
          constructor
          · intro hid
            obtain ⟨r, hr, rfl⟩ := List.mem_map.mp hid
            have hlock := hlocked r hr
            rw [Db.locked, htx] at hlock
            exact hlock
          · intro hid
            obtain ⟨r, hr, hpending⟩ := hrows id hid
            rw [← Db.row?_id hr]
            exact List.mem_map_of_mem (List.mem_filter.mpr ⟨Db.row?_mem hr, hpending⟩)
        refine ⟨_, rfl, ?_, fun id => ?_, fun id hid => ?_⟩
        · rw [← heq]
          exact hnodup
        · simp only [hrev, List.nil_append]
          rw [hiff, heq]
        · simp only [hrev, List.nil_append] at hid
          have hlock := (hiff id).mp hid
          obtain ⟨r, hr, hpending⟩ := hrows id hlock
          exact ⟨List.mem_append_left _ hlock, r, hr, EventLog.fcr_status_of_isPendingAt hpending⟩
    | commit =>
        obtain rfl : p = .marked := hallow
        obtain ⟨tx, htx, -⟩ := h
        simp only [Db.commit, htx, Phase.after]
        rfl
    | rollback => rfl
    | _ => cases hst
  · have hsame : p.after (.db st) (.error e) = p := by
      cases st <;> first | rfl | cases hfail
    rw [hsame]
    exact h

end FcrChecker

/-! ## The audit trail and the rows -/

/-- The rows the audit trail names. -/
abbrev Db.trail (db : Db) : List Int := db.fcr_false_positives.map FalsePositive.event_log_id

/-- The audit trail names every row marked as reverted, each once, and no row that
is marked otherwise. -/
structure Db.Audited (db : Db) : Prop where
  nodup : db.trail.Nodup
  known : ∀ id ∈ db.trail, id < db.next_id ∧
    ∀ r, db.row? id = some r → r.fcr_status = some .reverted
  named : ∀ id r, db.row? id = some r → r.fcr_status = some .reverted →
    id ∈ db.trail

namespace Db

variable {db db' : Db} {st : Stmt} {x : Except String st.Ret} {id : Int}

/-- Only a COMMIT writes to the audit trail. -/
theorem Answers.trail_eq (h : db.Answers st x db') (hst : st ≠ .commit) :
    db'.trail = db.trail := by
  by_cases hchecker : st.byChecker = false
  · rw [trail, trail, (h.tx_eq hchecker).2]
  · rcases h with ⟨-, skip, hexec⟩ | ⟨-, rfl, -⟩
    · obtain ⟨rfl, rfl⟩ := Prod.mk.inj hexec.symm
      cases st with
      | selectAffected modes n b =>
          simp only [Db.selectAffected]
          split <;> rfl
      | insertFalsePositive row =>
          simp only [Db.insertFalsePositive]
          split <;> rfl
      | markReverted modes n b =>
          simp only [Db.markReverted]
          split <;> rfl
      | commit => exact absurd rfl hst
      | markConfirmed _ _ _ | begin | rollback => rfl
      | _ => exact absurd rfl hchecker
    · rfl

theorem Audited.quiet (h : db.Audited) (hk : db.Keyed) (hans : db.Answers st x db')
    (hst : st ≠ .commit) (hinsert : ∀ n, st = .insertEventLog n → n.fcr_status ≠ some .reverted) :
    db'.Audited := by
  have hsame := hans.trail_eq hst
  -- what is marked as reverted was so before, and the other way round
  have hrow : ∀ id r', db'.row? id = some r' → (id = db.next_id ∧ r'.fcr_status ≠ some .reverted) ∨
      ∃ r, db.row? id = some r ∧
        (r'.fcr_status = some .reverted ↔ r.fcr_status = some .reverted) := by
    intro id r' hr'
    have hmove := (hans.rowEffect hk id).move
    rw [hr'] at hmove
    generalize hafter : some r' = after at hmove
    cases hmove with
    | same => exact Or.inr ⟨r', hafter.symm, Iff.rfl⟩
    | @inserted n k hnew =>
        obtain rfl := Option.some.inj hafter
        exact Or.inl ⟨hnew, hinsert n rfl⟩
    | deleted => cases hafter
    | claimed hr | staged hr | released hr =>
        obtain rfl := Option.some.inj hafter
        exact Or.inr ⟨_, hr, Iff.rfl⟩
    | confirmed hr hpending =>
        obtain rfl := Option.some.inj hafter
        refine Or.inr ⟨_, hr, ?_⟩
        rw [EventLog.fcr_status_of_isPendingAt hpending]
        exact ⟨nofun, nofun⟩
    | reverted hr hlisted => exact absurd rfl hst
  refine ⟨hsame ▸ h.nodup, fun id hid => ?_, fun id r' hr' hrev => ?_⟩
  · rw [hsame] at hid
    obtain ⟨hlt, hrev⟩ := h.known id hid
    refine ⟨lt_of_lt_of_le hlt (hans.keyed hk).2, fun r' hr' => ?_⟩
    rcases hrow id r' hr' with ⟨hnew, -⟩ | ⟨r, hr, hiff⟩
    · exact absurd hnew hlt.ne
    · exact hiff.mpr (hrev r hr)
  · rw [hsame]
    rcases hrow id r' hr' with ⟨-, hnot⟩ | ⟨r, hr, hiff⟩
    · exact absurd hrev hnot
    · exact h.named id r hr (hiff.mp hrev)

theorem Audited.commit (h : db.Audited) (hk : db.Keyed) (hp : FcrChecker.Phase.marked.Holds db)
    {x : Except String Unit} (hans : db.Answers .commit x db') : db'.Audited := by
  have hrow := fun id => hans.rowEffect hk id
  have hnext := (hans.keyed hk).2
  rcases hans with ⟨-, skip, hexec⟩ | ⟨-, rfl, -⟩
  · obtain ⟨tx, htx, hnodup, hiff, hpending⟩ := hp
    simp only [Db.exec, Db.commit, htx] at hexec
    obtain ⟨rfl, rfl⟩ := Prod.mk.inj hexec.symm
    simp only [Stmt.RowEffect, htx, Option.elim] at hrow
    have hfresh : ∀ id ∈ db.trail,
        id ∉ tx.reverted := by
      intro id hid hlisted
      obtain ⟨-, r, hr, hstatus⟩ := hpending id hlisted
      have hrev := (h.known id hid).2 r hr
      rw [hstatus] at hrev
      cases hrev
    have hmem : ∀ id, id ∈ (db.fcr_false_positives ++ tx.inserted).map
        FalsePositive.event_log_id ↔
        id ∈ db.trail ∨ id ∈ tx.reverted := by
      intro id
      rw [List.map_append, List.mem_append, hiff]
    refine ⟨?_, fun id hid => ?_, fun id r' hr' hrev => ?_⟩
    · show ((db.fcr_false_positives ++ tx.inserted).map FalsePositive.event_log_id).Nodup
      rw [List.map_append, List.nodup_append]
      refine ⟨h.nodup, hnodup, fun id hid id' hid' heq => ?_⟩
      subst heq
      exact hfresh id hid ((hiff id).mpr hid')
    · rcases (hmem id).mp hid with hold | hlisted
      · obtain ⟨hlt, hrev⟩ := h.known id hold
        refine ⟨hlt, fun r' hr' => ?_⟩
        obtain ⟨r, hr, rfl⟩ := Option.map_eq_some_iff.mp ((hrow id).symm.trans hr')
        split
        · rfl
        · exact hrev r hr
      · obtain ⟨-, r, hr, -⟩ := hpending id hlisted
        refine ⟨hk.lt_next_of_row? hr, fun r' hr' => ?_⟩
        have heq := (hrow id).symm.trans hr'
        rw [hr, Option.map_some, Db.row?_id hr, decide_eq_true hlisted, if_pos rfl] at heq
        rw [← Option.some.inj heq]
        rfl
    · apply (hmem id).mpr
      obtain ⟨r, hr, rfl⟩ := Option.map_eq_some_iff.mp ((hrow id).symm.trans hr')
      by_cases hlisted : id ∈ tx.reverted
      · exact Or.inr hlisted
      · rw [Db.row?_id hr, decide_eq_false hlisted] at hrev
        exact Or.inl (h.named id r hr hrev)
  · exact h

/-- The rows a COMMIT puts on the audit trail are there. -/
theorem Answers.trail_commit (hk : db.Keyed) (hp : FcrChecker.Phase.marked.Holds db)
    {x : Except String Unit} (hans : db.Answers .commit x db') :
    (∀ id ∈ db.trail,
      id ∈ db'.trail) ∧
    ∀ id ∈ db'.trail,
      id ∈ db.trail ∨ ∃ r, db'.row? id = some r := by
  have hrow := fun id => hans.rowEffect hk id
  rcases hans with ⟨-, skip, hexec⟩ | ⟨-, rfl, -⟩
  · obtain ⟨tx, htx, hnodup, hiff, hpending⟩ := hp
    simp only [Db.exec, Db.commit, htx] at hexec
    obtain ⟨rfl, rfl⟩ := Prod.mk.inj hexec.symm
    simp only [trail, List.map_append, List.mem_append]
    refine ⟨fun id hid => Or.inl hid, fun id hid => hid.imp_right fun hnew => ?_⟩
    obtain ⟨-, r, hr, -⟩ := hpending id ((hiff id).mpr hnew)
    exact ⟨_, (hrow id).trans (congrArg _ hr)⟩
  · exact ⟨fun _ hid => hid, fun _ hid => Or.inl hid⟩

end Db

/-! ## Over runs -/

namespace Sys

variable {s t : Sys W} {l : Label}

/-- Where the checker is in its transaction. -/
def phase (s : Sys W) : FcrChecker.Phase :=
  (s.running .fcr_checker).elim .closed fun r => FcrChecker.auditing.after .closed r.trace

/-- The UPDATE of the checker's transaction matches rows only that are locked by it:
none has been inserted since its SELECT. -/
def marksLocked (s : Sys W) : Label → Bool
  | .call _ ⟨.db (.markReverted modes n h), _⟩ =>
      (s.shared.db.affected modes n h).all fun r => decide (r.id ∈ s.shared.db.locked)
  | _ => true

theorem marksLocked_db {v : Service} {st : Stmt} {x : Except String st.Ret}
    (h : s.marksLocked (.call v ⟨.db st, x⟩) = true) :
    FcrChecker.MarksLocked s.shared.db st := by
  cases st with
  | markReverted modes n b => exact fun r hr => of_decide_eq_true (List.all_eq_true.mp h r hr)
  | _ => trivial

/-- The checker's round in progress follows the order of its statements. -/
theorem Coherent.auditing (hs : s.Coherent lib) {r : Running}
    (hr : s.running .fcr_checker = some r) :
    Act.Follows FcrChecker.auditing s.phase r.rest (Quiet .closed) := by
  obtain ⟨hservice, hsteps⟩ := hs _ r hr
  have hround : Act.Follows FcrChecker.auditing .closed (Job.prog lib s.config .check)
      (Quiet .closed) := by
    refine Act.follows_bind.mpr (FcrChecker.auditing_cycle.mono ?_)
    rintro p ((e | m) | a) hquiet <;> exact hquiet
  rw [phase, hr]
  cases hjob : r.job with
  | check =>
      rw [hjob] at hsteps
      exact Prog.Follows.steps hround hsteps
        (Protocol.admitted_of_all _ (fun _ _ _ => trivial) _ _)
  | _ =>
      rw [hjob] at hservice
      cases hservice

/-- Nobody else sends the statements of the checker. -/
theorem Coherent.byChecker (hs : s.Coherent lib) {v : Service} {r : Running} {st : Stmt}
    {k : Except String st.Ret → Prog Calls (Except (Exit BridgeValidatorError) (Option Nat))}
    (hr : s.running v = some r) (hrest : r.rest = @Prog.call Calls _ (.db st) k)
    (hv : v ≠ .fcr_checker) : st.byChecker = false := by
  have hallow := hs.running_allows hr hrest
  have hservice := (hs v r hr).1
  unfold Running.Allows at hallow
  cases hjob : r.job with
  | check =>
      rw [hjob] at hservice
      exact absurd hservice.symm hv
  | _ =>
      rw [hjob] at hallow
      cases st <;> first | rfl | exact hallow.elim

/-- Only indexers insert, and no row is inserted with a verdict. -/
theorem Coherent.inserts_open (hs : s.Coherent lib) {v : Service} {r : Running} {n : NewEventLog}
    {k : Except String Nat → Prog Calls (Except (Exit BridgeValidatorError) (Option Nat))}
    (hr : s.running v = some r) (hrest : r.rest = @Prog.call Calls _ (.db (.insertEventLog n)) k) :
    n.fcr_status = some .pending ∨ n.fcr_status = none := by
  obtain ⟨i, log, log_index, topic_key, log_json, -, rfl⟩ := hs.insert_allows hr hrest
  simp only [EventIndexer.eventLogOf]
  split
  · exact Or.inl rfl
  · exact Or.inr rfl

/-- The open transaction is where the checker is, and the audit trail is in order. -/
structure Audited (lib : Externals) (s : Sys W) : Prop where
  coherent : s.Coherent lib
  keyed : s.shared.db.Keyed
  open_tx : s.phase.Holds s.shared.db
  trail : s.shared.db.Audited

theorem phase_begin {job : Job} (hidle : s.running job.service = none) :
    (s.begin lib job).phase = s.phase := by
  by_cases hv : .fcr_checker = job.service
  · simp [phase, Sys.begin, hv, hidle, Protocol.after]
  · rw [phase, running_begin hv, phase]

theorem phase_advance {r : Running} {e : Event Calls} {rest : Action (Option Nat)}
    {sh : Shared W} (hr : s.running .fcr_checker = some r) :
    (s.advance .fcr_checker r e rest sh).phase = s.phase.after e.op e.ans := by
  rw [phase, running_advance_self, phase, hr]
  exact Protocol.after_append _ _ _ _

theorem phase_advance_of_ne {v : Service} {r : Running} {e : Event Calls}
    {rest : Action (Option Nat)} {sh : Shared W} (hv : v ≠ .fcr_checker) :
    (s.advance v r e rest sh).phase = s.phase := by
  rw [phase, running_advance (Ne.symm hv), phase]

/-- A call of the checker keeps to the order of its statements. -/
theorem Coherent.auditing_allows (hs : s.Coherent lib) {r : Running} {o : Op}
    {k : o.Ans → Prog Calls (Except (Exit BridgeValidatorError) (Option Nat))}
    (hr : s.running .fcr_checker = some r) (hrest : r.rest = Prog.call o k) :
    FcrChecker.auditing.allows s.phase o := by
  have hfollows := hs.auditing hr
  rw [hrest] at hfollows
  exact hfollows.1

/-- The checker's own call moves its phase, and commits what it says. -/
theorem Audited.call_checker (h : s.Audited lib) {r : Running} {o : Op} {x : o.Ans}
    {k : o.Ans → Prog Calls (Except (Exit BridgeValidatorError) (Option Nat))} {sh : Shared W}
    (hr : s.running .fcr_checker = some r) (hrest : r.rest = Prog.call o k)
    (hans : s.shared.Answers o x sh)
    (hlocked : s.marksLocked (.call .fcr_checker ⟨o, x⟩) = true) :
    (s.phase.after o x).Holds sh.db ∧ sh.db.Audited := by
  have hallow := h.coherent.auditing_allows hr hrest
  cases hans with
  | @rpc rq x w hw => exact ⟨h.open_tx, h.trail⟩
  | @db st x db' hans =>
      constructor
      · by_cases hst : st.byChecker = true
        · exact h.open_tx.step h.keyed hans hallow hst (marksLocked_db hlocked)
        · have hsame : s.phase.after (.db st) x = s.phase := by
            cases st <;> first | rfl | exact absurd rfl hst
          rw [hsame]
          exact h.open_tx.others h.keyed hans (Bool.eq_false_iff.mpr hst)
      · by_cases hst : st = .commit
        · subst hst
          have hmarked : s.phase = .marked := hallow
          exact h.trail.commit h.keyed (hmarked ▸ h.open_tx) hans
        · apply h.trail.quiet h.keyed hans hst
          rintro n rfl
          exact hallow.elim
  | sent _ => exact hallow.elim
  | closed => exact hallow.elim

/-- Nobody else's call is about the transaction, or about a verdict. -/
theorem Audited.call_others (h : s.Audited lib) {v : Service} {r : Running} {o : Op} {x : o.Ans}
    {k : o.Ans → Prog Calls (Except (Exit BridgeValidatorError) (Option Nat))} {sh : Shared W}
    (hr : s.running v = some r) (hrest : r.rest = Prog.call o k)
    (hans : s.shared.Answers o x sh) (hv : v ≠ .fcr_checker) :
    s.phase.Holds sh.db ∧ sh.db.Audited := by
  cases hans with
  | @db st x db' hans =>
      have hst := h.coherent.byChecker hr hrest hv
      constructor
      · exact h.open_tx.others h.keyed hans hst
      · refine h.trail.quiet h.keyed hans ?_ ?_
        · rintro rfl
          cases hst
        · rintro n rfl
          rcases h.coherent.inserts_open hr hrest with heq | heq <;> rw [heq] <;> exact nofun
  | _ => exact ⟨h.open_tx, h.trail⟩

theorem Audited.step (h : s.Audited lib) (hstep : s.Step lib l t)
    (hlocked : s.marksLocked l = true) : t.Audited lib := by
  have hcoherent := h.coherent.step hstep
  have hkeyed := hstep.keyed h.keyed
  have hbegin : ∀ job : Job, s.running job.service = none →
      (s.begin lib job).phase.Holds s.shared.db := by
    intro job hidle
    rw [phase_begin hidle]
    exact h.open_tx
  cases hstep with
  | @index i hidle => exact ⟨hcoherent, hkeyed, hbegin (.index i _) hidle.1, h.trail⟩
  | @process k hidle hsd => exact ⟨hcoherent, hkeyed, hbegin (.process k) hidle.1, h.trail⟩
  | @recv data rest hidle hch =>
      have hpop : s.popChannel.running (Job.service (.send data)) = none := hidle.1
      refine ⟨hcoherent, hkeyed, ?_, h.trail⟩
      rw [phase_begin hpop]
      exact h.open_tx
  | check hidle hfcr => exact ⟨hcoherent, hkeyed, hbegin .check hidle.1, h.trail⟩
  | @call v r o k x sh hr hrest hans =>
      by_cases hv : v = .fcr_checker
      · subst hv
        obtain ⟨hopen, htrail⟩ := h.call_checker hr hrest hans hlocked
        have hphase : (s.advance .fcr_checker r ⟨o, x⟩ (k x) sh).phase = s.phase.after o x :=
          phase_advance hr
        refine ⟨hcoherent, hkeyed, ?_, htrail⟩
        rw [hphase]
        exact hopen
      · obtain ⟨hopen, htrail⟩ := h.call_others hr hrest hans hv
        have hphase : (s.advance v r ⟨o, x⟩ (k x) sh).phase = s.phase := phase_advance_of_ne hv
        refine ⟨hcoherent, hkeyed, ?_, htrail⟩
        rw [hphase]
        exact hopen
  | @finish v r result hr hrest =>
      refine ⟨hcoherent, hkeyed, ?_, h.trail⟩
      by_cases hv : v = .fcr_checker
      · subst hv
        have hfollows := h.coherent.auditing hr
        rw [hrest] at hfollows
        have hclosed : s.phase = .closed := hfollows
        have hnone : (s.done .fcr_checker r.job result).phase = .closed := by
          simp [phase, Sys.done]
        rw [hnone, ← hclosed]
        exact h.open_tx
      · rw [phase, running_done (Ne.symm hv)]
        exact h.open_tx
  | panic hr hrest =>
      exact ⟨hcoherent, hkeyed, rfl, h.trail.nodup, h.trail.known, h.trail.named⟩
  | exit hidle hexit => exact ⟨hcoherent, hkeyed, h.open_tx, h.trail⟩
  | signal => exact ⟨hcoherent, hkeyed, h.open_tx, h.trail⟩
  | tick hw => exact ⟨hcoherent, hkeyed, h.open_tx, h.trail⟩
  | restart => exact ⟨hcoherent, hkeyed, rfl, h.trail.nodup, h.trail.known, h.trail.named⟩

/-- An id gets on the audit trail with its row, and stays there. -/
theorem Audited.trail_step (h : s.Audited lib) (hstep : s.Step lib l t) :
    (∀ id ∈ s.shared.db.trail, id ∈ t.shared.db.trail) ∧
    ∀ id ∈ t.shared.db.trail, id ∈ s.shared.db.trail ∨ ∃ r, t.row? id = some r := by
  cases hstep with
  | @call v r o k x sh hr hrest hans =>
      cases hans with
      | @db st x db' hans =>
          by_cases hst : st = .commit
          · subst hst
            have hv : v = .fcr_checker := by
              by_contra hv
              cases h.coherent.byChecker hr hrest hv
            subst hv
            have hmarked : s.phase = .marked := h.coherent.auditing_allows hr hrest
            exact hans.trail_commit h.keyed (hmarked ▸ h.open_tx)
          · have hsame : db'.trail = s.shared.db.trail := hans.trail_eq hst
            show (∀ id ∈ _, id ∈ db'.trail) ∧ ∀ id ∈ db'.trail, _
            rw [hsame]
            exact ⟨fun _ hid => hid, fun _ hid => Or.inl hid⟩
      | _ => exact ⟨fun _ hid => hid, fun _ hid => Or.inl hid⟩
  | _ => exact ⟨fun _ hid => hid, fun _ hid => Or.inl hid⟩

end Sys

/-! ## What has ever been reverted -/

/-- Along the run of `M` the row of `id` has had this status. -/
def Had (M : Machine (Sys W) Label) (s : Sys W) (ls : List Label) (t : Sys W) (id : Int)
    (status : FcrStatus) : Prop :=
  ∃ ls₁ m ls₂ r, ls = ls₁ ++ ls₂ ∧ M.Run s ls₁ m ∧ M.Run m ls₂ t ∧ m.row? id = some r ∧
    r.fcr_status = some status

section

variable {M : Machine (Sys W) Label} {s t u : Sys W} {l : Label} {ls : List Label} {id : Int}
  {status : FcrStatus}

theorem Had.now (hrun : M.Run s ls t) {r : EventLog} (hr : t.row? id = some r)
    (hstatus : r.fcr_status = some status) : Had M s ls t id status :=
  ⟨ls, t, [], r, (List.append_nil ls).symm, hrun, .nil, hr, hstatus⟩

theorem Had.snoc (h : Had M s ls t id status) (hstep : M.step t l u) :
    Had M s (ls ++ [l]) u id status := by
  obtain ⟨ls₁, m, ls₂, r, rfl, h₁, h₂, hr, hstatus⟩ := h
  exact ⟨ls₁, m, ls₂ ++ [l], r, List.append_assoc .., h₁, .snoc h₂ hstep, hr, hstatus⟩

end

/-- The audit trail names the rows that have ever been reverted, each once. -/
def AuditAgrees (M : Machine (Sys W) Label) (s : Sys W) (ls : List Label) (t : Sys W) : Prop :=
  t.shared.db.trail.Nodup ∧
    ∀ id, Had M s ls t id .reverted ↔ id ∈ t.shared.db.trail

/-- The system, with no row of a block inserted between the SELECT and the UPDATE of the
transaction about that block. -/
def marking (lib : Externals) (W : World) : Machine (Sys W) Label :=
  (system lib W).guarded fun s l _ => s.marksLocked l = true

theorem Sys.audited_boot {w : W.State} : (Sys.boot cfg Db.empty w).Audited lib where
  coherent := Sys.coherent_boot
  keyed := Db.keyed_empty
  open_tx := rfl
  trail := ⟨List.nodup_nil, fun _ hid => (by cases hid), fun _ _ hr => (by cases hr)⟩

namespace Sys

variable {s t : Sys W} {ls : List Label}

theorem Audited.run (h : s.Audited lib) (hrun : (marking lib W).Run s ls t) : t.Audited lib :=
  hrun.invariant (fun _ _ _ hs hstep => hs.step hstep.1 hstep.2) h

/-- What is on the audit trail stays there. -/
theorem Audited.trail_run (h : s.Audited lib) (hrun : (marking lib W).Run s ls t) :
    ∀ id ∈ s.shared.db.trail, id ∈ t.shared.db.trail := by
  intro id hid
  induction hrun with
  | nil => exact hid
  | snoc hrun hstep ih => exact ((h.run hrun).trail_step hstep.1).1 id ih

/-- What has been reverted is on the audit trail. -/
theorem Audited.on_trail (h : s.Audited lib) {id : Int}
    (hhad : Had (marking lib W) s ls t id .reverted) : id ∈ t.shared.db.trail := by
  obtain ⟨ls₁, m, ls₂, r, rfl, h₁, h₂, hr, hstatus⟩ := hhad
  have hm := h.run h₁
  exact hm.trail_run h₂ id (hm.trail.named id r hr hstatus)

end Sys

/-- **The audit trail and the statuses agree as long as the UPDATE matches what the
SELECT has locked.** Whatever the interleaving, and wherever a statement fails or the
process ends. -/
theorem audit_agrees_of_marking {w : W.State} {ls : List Label} {t : Sys W}
    (hrun : (marking lib W).Run (Sys.boot cfg Db.empty w) ls t) :
    AuditAgrees (marking lib W) (Sys.boot cfg Db.empty w) ls t := by
  refine ⟨(Sys.audited_boot.run hrun).trail.nodup, fun id => ⟨Sys.audited_boot.on_trail, ?_⟩⟩
  intro hid
  induction hrun with
  | nil => cases hid
  | @snoc ls s l u hrun hstep ih =>
      have hs := Sys.audited_boot.run hrun
      rcases (hs.trail_step hstep.1).2 id hid with hold | ⟨r, hr⟩
      · exact (ih hold).snoc hstep
      · have hu := (hs.step hstep.1 hstep.2).trail
        exact .now (hrun.snoc hstep) hr ((hu.known id hid).2 r hr)

/-- The checker reverts a row, and says so. -/
theorem audit_agrees_of_marking_reverted :
    ∃ (t : Sys World.any) (ls : List Label),
      AuditAgrees (marking Deployment.externals World.any)
        (Sys.boot Deployment.config Db.empty ()) ls t ∧
      ∃ r ∈ t.shared.db.event_logs, r.fcr_status = some .reverted := by
  have hboot : (Sys.boot Deployment.config Db.empty () : Sys World.any).Resting :=
    Sys.resting_boot
  obtain ⟨ls, t, hrun, -, hp⟩ := Turn.exists_of_playGuarded
    [.index .ETHAmb (Deployment.lookups (.repeatByte 32 0xbb)),
      .check (Deployment.lookups (.repeatByte 32 0xbb))]
    (fun q => q.2.shared.db.event_logs.any fun r => r.fcr_status == some .reverted)
    Turn.sound_any hboot
    (show (Turn.playGuarded Deployment.externals
      (fun s l _ => s.marksLocked l = true) _ _).any _ = true by decide +kernel)
  obtain ⟨r, hr, hstatus⟩ := List.any_eq_true.mp hp
  exact ⟨t, ls, audit_agrees_of_marking hrun, r, hr, beq_iff_eq.mp hstatus⟩

/-! ## An INSERT in the middle -/

namespace Deployment

/-- Block 100 has a log for each bridge. -/
def twoLogs : Oracle World.any := fun w r =>
  match r with
  | .getLogs _ filter =>
      (.ok [{ log filter.address 100 (.repeatByte 32 0xaa) with
        log_index := some (if filter.address = config.eth_amb_bridge_address then 0 else 1) }], w)
  | r => lookups (.repeatByte 32 0xbb) w r

/-- The checker selects the first row; then the other indexer inserts the second
one, and the checker goes on. -/
def insertBetween : List Service :=
  List.replicate 5 (.indexer .ETHAmb) ++ List.replicate 9 .fcr_checker ++
    List.replicate 4 (.indexer .ETHXdai) ++ List.replicate 3 .fcr_checker

end Deployment

/-- The second row is marked as reverted, and there is no audit row for it. -/
theorem reverted_row_has_no_audit_row :
    ¬ ∀ (lib : Externals) (W : World) (cfg : Config) (w : W.State) (ls : List Label) (t : Sys W),
      (system lib W).Run (Sys.boot cfg Db.empty w) ls t →
      AuditAgrees (system lib W) (Sys.boot cfg Db.empty w) ls t := by
  intro hclaim
  obtain ⟨ls, t, hrun, hp⟩ := Sys.exists_of_playSchedule
    (s := (Sys.boot Deployment.config Db.empty () : Sys World.any)) Deployment.insertBetween
    (fun q => (q.2.row? 2).any (fun r => r.fcr_status == some .reverted) &&
      decide (2 ∉ q.2.shared.db.trail))
    (World.any_truthful Deployment.twoLogs)
    (show (Sys.playSchedule Deployment.externals _ _ _).any _ = true by decide +kernel)
  simp only [Bool.and_eq_true, Option.any_eq_true, beq_iff_eq, decide_eq_true_eq] at hp
  obtain ⟨⟨r, hr, hstatus⟩, hmissing⟩ := hp
  have hagrees := hclaim _ _ _ _ ls t hrun
  exact hmissing ((hagrees.2 2).mp (.now hrun hr hstatus))

end BridgeValidator
