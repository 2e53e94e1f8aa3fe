import BridgeValidator.Adjudication
import BridgeValidator.AuditTrail
import BridgeValidator.Lifetimes

/-!
# What a completed cycle leaves pending

A cycle works on a list of blocks it has selected, while rows come, go and change under it.
All the same, after it no row that was there before is pending any more at a block it has
settled: the UPDATE has confirmed the row, or the transaction has marked it and has been
committed. So a row stays pending only where no provider has named the hash of its block.
-/

namespace BridgeValidator

open Interaction

variable {W : World} {lib : Externals}

namespace FcrChecker

/-! ## What the statements of a round have settled -/

/-- The rows one statement of the checker is about. -/
structure Target where
  modes : List BridgeMode
  block_number : Int
  block_hash : String

def Target.covers (p : Target) (r : EventLog) : Bool :=
  r.isPendingAt p.modes p.block_number p.block_hash

/-- What a row that is given a verdict has become is not pending. -/
theorem Target.covers_withStatus (p : Target) (r : EventLog) {status : FcrStatus}
    (h : status ≠ .pending) : p.covers (r.withStatus status) = false := by
  cases status with
  | pending => exact absurd rfl h
  | confirmed | reverted =>
      simp [covers, EventLog.isPendingAt, EventLog.isPendingOf, EventLog.withStatus]

/-- Confirmed, or marked in a transaction that has been committed; and what is marked in the
open one. -/
structure Marks where
  opened : Option Target
  settled : List Target

def Marks.none : Marks := ⟨.none, []⟩

def Marks.after (m : Marks) : (o : Op) → o.Ans → Marks
  | .db (.markConfirmed modes n h), .ok _ => ⟨m.opened, ⟨modes, n, h⟩ :: m.settled⟩
  | .db (.markReverted modes n h), .ok _ => ⟨some ⟨modes, n, h⟩, m.settled⟩
  | .db .commit, .ok _ => ⟨Option.none, m.opened.toList ++ m.settled⟩
  | .db .begin, .ok _ => ⟨Option.none, m.settled⟩
  | .db .rollback, .ok _ => ⟨Option.none, m.settled⟩
  | _, _ => m

/-- Keeps the marks, and asks nothing of the calls. -/
def tallying : Protocol Calls Marks where
  allows _ _ := True
  admits _ _ _ := True
  next := Marks.after

variable {chain : Chain} {el_rpcs : List String} {finalized_block : Int} {block : PendingBlock}
  {tr : Trace Calls} {m : Marks} {p : Target}

/-- What is settled stays so. -/
theorem settled_after (h : p ∈ m.settled) : p ∈ (tallying.after m tr).settled := by
  induction tr generalizing m with
  | nil => exact h
  | cons e tr ih =>
      apply ih
      show p ∈ (m.after e.op e.ans).settled
      unfold Marks.after
      split
      · exact List.mem_cons_of_mem _ h
      · exact h
      · exact List.mem_append_right _ h
      · exact h
      · exact h
      · exact h

def targetOf (chain : Chain) (block : PendingBlock) : Target :=
  ⟨bridgeModes chain, block.block_number, block.stored_block_hash⟩

/-- Wherever a round stands, these calls settle the block. -/
def Settles (chain : Chain) (block : PendingBlock) (tr : Trace Calls) : Prop :=
  ∀ m, targetOf chain block ∈ (tallying.after m tr).settled

theorem Settles.append_left {tr' : Trace Calls} (h : Settles chain block tr) :
    Settles chain block (tr' ++ tr) := by
  intro m
  rw [Protocol.after_append]
  exact h _

theorem Settles.append_right {tr' : Trace Calls} (h : Settles chain block tr) :
    Settles chain block (tr ++ tr') := by
  intro m
  rw [Protocol.after_append]
  exact settled_after (h m)

theorem settles_of_markConfirmed {k : Nat} (h : Prog.Runs (markConfirmed chain block) tr (.ok k)) :
    Settles chain block tr := by
  obtain rfl := trace_of_sql h
  intro m
  exact List.mem_cons_self

/-- Whatever came before, the last two statements settle the block. -/
theorem settles_of_recordFalsePositive {canonical_block_hash : Option String}
    (h : Prog.Runs (recordFalsePositive chain block canonical_block_hash finalized_block) tr
      (.ok ())) : Settles chain block tr := by
  obtain ⟨begins, _, rest, rfl, -, hrest⟩ := Act.runs_andThen_ok.mp h
  apply Settles.append_left
  obtain ⟨body, result, rest, rfl, hbody, hrest⟩ := Act.runs_attempt_andThen.mp hrest
  apply Settles.append_right
  cases result with
  | error e =>
      cases e with
      | error e =>
          obtain ⟨_, _, _, -, -, hthrow⟩ := Act.runs_andThen_ok.mp hrest
          cases hthrow.2
      | panic msg => cases hrest.2
  | ok _ =>
      obtain ⟨selects, affected, rest, rfl, -, hbody⟩ := Act.runs_andThen_ok.mp hbody
      apply Settles.append_left
      obtain ⟨inserts, _, rest, rfl, -, hbody⟩ := Act.runs_andThen_ok.mp hbody
      apply Settles.append_left
      obtain ⟨marks, k, rest, rfl, hmarks, hcommit⟩ := Act.runs_andThen_ok.mp hbody
      obtain rfl := trace_of_sql hmarks
      obtain rfl := trace_of_sql hcommit
      intro m
      exact List.mem_cons_self

/-- A lookup of the block among these calls has found no hash. -/
def Unavailable (el_rpcs : List String) (block_number : Int) (tr : Trace Calls) : Prop :=
  ∃ lookup result, lookup <:+: tr ∧
    Prog.Runs (getCanonicalBlockHash el_rpcs block_number) lookup result ∧
    ∀ h, result ≠ .ok (some h)

theorem Unavailable.mono {n : Int} {tr' : Trace Calls} (h : Unavailable el_rpcs n tr)
    (hin : tr <:+: tr') : Unavailable el_rpcs n tr' := by
  obtain ⟨lookup, result, hlookup, hruns, hresult⟩ := h
  exact ⟨lookup, result, hlookup.trans hin, hruns, hresult⟩

/-- A block is settled, or its hash is not to be had. -/
theorem settles_of_adjudicate
    (h : Prog.Runs (adjudicate chain el_rpcs finalized_block block) tr (.ok ())) :
    Settles chain block tr ∨ Unavailable el_rpcs block.block_number tr := by
  obtain ⟨verdict, v, rest, rfl, hverdict, hrest⟩ := Act.runs_andThen_ok.mp h
  obtain ⟨lookup, result, judged, rfl, hlookup, hjudged⟩ := Act.runs_attempt_andThen.mp hverdict
  have hunavailable : (∀ h, result ≠ .ok (some h)) →
      Unavailable el_rpcs block.block_number ((lookup ++ judged) ++ rest) := by
    intro hresult
    refine ⟨lookup, result, ?_, hlookup, hresult⟩
    rw [List.append_assoc]
    exact (List.prefix_append lookup _).isInfix
  cases result with
  | error e => exact Or.inr (hunavailable fun _ heq => by cases heq)
  | ok canonical =>
      cases canonical with
      | none => exact Or.inr (hunavailable fun _ heq => by cases heq)
      | some canonical =>
          left
          apply Settles.append_left
          simp only at hjudged
          split at hjudged
          · obtain ⟨-, heq⟩ := hjudged
            obtain rfl := Except.ok.inj heq
            obtain ⟨marks, k, none, rfl, hmarks, -⟩ := Act.runs_andThen_ok.mp hrest
            exact (settles_of_markConfirmed hmarks).append_right
          · obtain ⟨-, heq⟩ := hjudged
            obtain rfl := Except.ok.inj heq
            exact settles_of_recordFalsePositive hrest

theorem settles_of_adjudicateAll {blocks : List PendingBlock}
    (h : Prog.Runs (adjudicateAll chain el_rpcs finalized_block blocks) tr (.ok ())) :
    ∀ block ∈ blocks, Settles chain block tr ∨ Unavailable el_rpcs block.block_number tr := by
  induction blocks generalizing tr with
  | nil =>
      intro block hblock
      cases hblock
  | cons first rest ih =>
      obtain ⟨tr₁, _, tr₂, rfl, hfirst, hrest⟩ := Act.runs_andThen_ok.mp h
      intro block hblock
      rcases List.mem_cons.mp hblock with rfl | hblock
      · rcases settles_of_adjudicate hfirst with hsettles | hunavailable
        · exact Or.inl hsettles.append_right
        · exact Or.inr (hunavailable.mono (List.prefix_append _ _).isInfix)
      · rcases ih hrest block hblock with hsettles | hunavailable
        · exact Or.inl hsettles.append_left
        · exact Or.inr (hunavailable.mono (List.suffix_append _ _).isInfix)

/-- A completed call has selected its blocks, and dealt with each of them. -/
theorem settles_of_checkChain {cfg : Config}
    (h : Prog.Runs (checkChain cfg chain el_rpcs) tr (.ok ())) :
    ∃ lookup finalized_block rest rows, tr = lookup ++ rest ∧
      Prog.Runs (getFinalizedBlockNumber (cfg.finalityRpcsForChain chain).1
        (cfg.finalityRpcsForChain chain).2) lookup (.ok finalized_block) ∧
      ⟨.db (.selectPendingBlocks (bridgeModes chain) finalized_block), .ok rows⟩ ∈ tr ∧
      ∀ row ∈ rows, Settles chain ⟨row.1, row.2⟩ tr ∨ Unavailable el_rpcs row.1 tr := by
  obtain ⟨lookup, finalized_block, rest, rfl, hlookup, hrest⟩ := Act.runs_andThen_ok.mp h
  obtain ⟨backlog, _, rest, rfl, -, hrest⟩ := Act.runs_andThen_ok.mp hrest
  obtain ⟨selects, pending, rest, rfl, hselects, hall⟩ := Act.runs_andThen_ok.mp hrest
  obtain ⟨select, rows, counts, rfl, hselect, hcounts⟩ := Act.runs_andThen_ok.mp hselects
  obtain ⟨counts, _, none, rfl, -, hnone⟩ := Act.runs_andThen_ok.mp hcounts
  obtain rfl := trace_of_sql hselect
  obtain ⟨-, heq⟩ := hnone
  obtain rfl := Except.ok.inj heq
  refine ⟨lookup, finalized_block, _, rows, rfl, hlookup, by simp, fun row hrow => ?_⟩
  rcases settles_of_adjudicateAll hall _ (List.mem_map_of_mem hrow) with hsettles | hunavailable
  · exact Or.inl hsettles.append_left.append_left.append_left
  · right
    apply hunavailable.mono
    simp only [← List.append_assoc]
    exact (List.suffix_append _ rest).isInfix

end FcrChecker

/-! ## The rows under the marks -/

open FcrChecker

section

variable {db db' : Db} {st : Stmt} {x : Except String st.Ret} {N id : Int} {m : Marks}
  {p : Target} {r' : EventLog}

/-- What is pending at a block after a statement was so before. -/
theorem Db.Answers.covered (hk : db.Keyed) (h : db.Answers st x db') (hid : id < db.next_id)
    (hr' : db'.row? id = some r') (hp : p.covers r' = true) :
    ∃ r, db.row? id = some r ∧ p.covers r = true := by
  have hmove := (h.rowEffect hk id).move
  generalize hafter : db'.row? id = after at hmove
  rw [hafter] at hr'
  subst hr'
  generalize hsome : some r' = after at hmove
  cases hmove with
  | same => exact ⟨r', hsome.symm, hp⟩
  | inserted hnew => exact absurd hnew hid.ne
  | deleted => cases hsome
  | claimed hr | staged hr | released hr =>
      obtain rfl := Option.some.inj hsome
      exact ⟨_, hr, hp⟩
  | confirmed hr | reverted hr =>
      obtain rfl := Option.some.inj hsome
      cases (Target.covers_withStatus p _ (by decide)).symm.trans hp

/-- No row with an id below `N` is pending at a block that is settled, and the open
transaction lists those pending at the block it has marked. -/
structure Db.Resolved (N : Int) (m : Marks) (db : Db) : Prop where
  settled : ∀ id r p, db.row? id = some r → id < N → p ∈ m.settled → p.covers r = false
  opened : ∀ p, m.opened = some p → ∃ tx, db.tx = some tx ∧
    ∀ id r, db.row? id = some r → id < N → p.covers r = true → id ∈ tx.reverted

theorem Db.resolved_none (N : Int) (db : Db) : db.Resolved N Marks.none where
  settled _ _ _ _ _ hp := by cases hp
  opened _ hp := by cases hp

/-- What is settled stays settled: rows become no more pending. -/
theorem Db.Resolved.kept (h : db.Resolved N m) (hk : db.Keyed) (hN : N ≤ db.next_id)
    (hans : db.Answers st x db') (hr' : db'.row? id = some r') (hid : id < N)
    (hp : p ∈ m.settled) : p.covers r' = false := by
  by_contra hcovers
  rw [Bool.not_eq_false] at hcovers
  obtain ⟨r, hr, hcovered⟩ := hans.covered hk (hid.trans_le hN) hr' hcovers
  cases (h.settled id r p hr hid hp).symm.trans hcovered

/-- A statement that marks nothing, and keeps the list of the open transaction. -/
theorem Db.Resolved.quiet (h : db.Resolved N m) (hk : db.Keyed) (hN : N ≤ db.next_id)
    (hans : db.Answers st x db')
    (htx : ∀ tx, db.tx = some tx → ∃ tx', db'.tx = some tx' ∧ tx'.reverted = tx.reverted) :
    db'.Resolved N m := by
  refine ⟨fun id r' p hr' hid hp => h.kept hk hN hans hr' hid hp, fun p hp => ?_⟩
  obtain ⟨tx, htx₀, hlisted⟩ := h.opened p hp
  obtain ⟨tx', htx', hsame⟩ := htx tx htx₀
  refine ⟨tx', htx', fun id r' hr' hid hcovers => ?_⟩
  obtain ⟨r, hr, hcovered⟩ := hans.covered hk (hid.trans_le hN) hr' hcovers
  rw [hsame]
  exact hlisted id r hr hid hcovered

theorem Db.Resolved.others (h : db.Resolved N m) (hk : db.Keyed) (hN : N ≤ db.next_id)
    (hans : db.Answers st x db') (hst : st.byChecker = false) : db'.Resolved N m := by
  refine h.quiet hk hN hans fun tx htx => ?_
  exact ⟨tx, (hans.tx_eq hst).1.trans htx, rfl⟩

/-- The UPDATE of a confirmed block settles it. -/
theorem Db.Resolved.markConfirmed (h : db.Resolved N m) (hk : db.Keyed) (hN : N ≤ db.next_id)
    {modes : List BridgeMode} {n : Int} {b : String} {a : Nat}
    (hans : db.Answers (.markConfirmed modes n b) (.ok a) db') :
    db'.Resolved N (m.after (.db (.markConfirmed modes n b)) (.ok a)) := by
  refine ⟨fun id r' p hr' hid hp => ?_, ?_⟩
  · rcases List.mem_cons.mp hp with rfl | hp
    · by_contra hcovers
      rw [Bool.not_eq_false] at hcovers
      obtain ⟨r, hr, hcovered⟩ := hans.covered hk (hid.trans_le hN) hr' hcovers
      have hpending : r.isPendingAt modes n b = true := hcovered
      have heff : db'.row? id = (db.row? id).map _ := hans.rowEffect hk id
      rw [hr', hr, Option.map_some, if_pos hpending] at heff
      obtain rfl := Option.some.inj heff
      cases (Target.covers_withStatus _ r (by decide)).symm.trans hcovers
    · exact h.kept hk hN hans hr' hid hp
  · have htx : db'.tx = db.tx := by
      rcases hans with ⟨-, skip, hexec⟩ | ⟨-, rfl, -⟩
      · obtain ⟨-, rfl⟩ := Prod.mk.inj hexec
        rfl
      · rfl
    exact (h.quiet hk hN hans fun tx htx₀ => ⟨tx, htx.trans htx₀, rfl⟩).opened

/-- The UPDATE of a reverted block lists its rows. -/
theorem Db.Resolved.markReverted (h : db.Resolved N m) (hk : db.Keyed) (hN : N ≤ db.next_id)
    {modes : List BridgeMode} {n : Int} {b : String} {a : Nat}
    (hans : db.Answers (.markReverted modes n b) (.ok a) db') :
    db'.Resolved N (m.after (.db (.markReverted modes n b)) (.ok a)) := by
  refine ⟨fun id r' p hr' hid hp => h.kept hk hN hans hr' hid hp, fun p hp => ?_⟩
  obtain rfl := Option.some.inj hp
  rcases hans with ⟨-, skip, hexec⟩ | ⟨-, -, e, hx⟩
  · simp only [Db.exec, Db.markReverted] at hexec
    split at hexec
    · cases hexec
    · obtain ⟨-, rfl⟩ := Prod.mk.inj hexec
      refine ⟨_, rfl, fun id r' hr' _ hcovers => ?_⟩
      apply List.mem_append_right
      rw [← Db.row?_id hr']
      exact List.mem_map_of_mem (List.mem_filter.mpr ⟨Db.row?_mem hr', hcovers⟩)
  · cases hx

/-- The COMMIT settles the block whose rows the transaction lists. -/
theorem Db.Resolved.commit (h : db.Resolved N m) (hk : db.Keyed) (hN : N ≤ db.next_id) {a : Unit}
    (hans : db.Answers .commit (.ok a) db') :
    db'.Resolved N (m.after (.db .commit) (.ok a)) := by
  refine ⟨fun id r' p hr' hid hp => ?_, fun p hp => by cases hp⟩
  rcases List.mem_append.mp hp with hp | hp
  · by_contra hcovers
    rw [Bool.not_eq_false] at hcovers
    obtain ⟨r, hr, hcovered⟩ := hans.covered hk (hid.trans_le hN) hr' hcovers
    obtain ⟨tx, htx, hlisted⟩ := h.opened p (Option.mem_toList.mp hp)
    have hrow : r.id ∈ tx.reverted := by
      rw [Db.row?_id hr]
      exact hlisted id r hr hid hcovered
    have heff : db'.row? id = (db.row? id).map _ := hans.rowEffect hk id
    rw [hr', hr, Option.map_some, htx, Option.elim, if_pos (decide_eq_true hrow)] at heff
    obtain rfl := Option.some.inj heff
    cases (Target.covers_withStatus p r (by decide)).symm.trans hcovers
  · exact h.kept hk hN hans hr' hid hp

/-- A statement of the round moves its marks. -/
theorem Db.Resolved.answer (h : db.Resolved N m) (hk : db.Keyed) (hN : N ≤ db.next_id)
    (hans : db.Answers st x db') : db'.Resolved N (m.after (.db st) x) := by
  cases x with
  | error e =>
      have hsame : m.after (.db st) (.error e) = m := by cases st <;> rfl
      have hdb : db' = db := by
        rcases hans with ⟨-, skip, hexec⟩ | ⟨-, rfl, -⟩
        · exact Db.exec_error hexec
        · rfl
      rw [hsame, hdb]
      exact h
  | ok a =>
      cases st with
      | markConfirmed modes n b => exact h.markConfirmed hk hN hans
      | markReverted modes n b => exact h.markReverted hk hN hans
      | commit => exact h.commit hk hN hans
      | begin | rollback =>
          refine ⟨fun id r' p hr' hid hp => h.kept hk hN hans hr' hid hp, fun p hp => ?_⟩
          cases hp
      | selectAffected modes n b =>
          refine h.quiet hk hN hans fun tx htx => ?_
          rcases hans with ⟨-, skip, hexec⟩ | ⟨-, -, e, hx⟩
          · simp only [Db.exec, Db.selectAffected, htx] at hexec
            obtain ⟨-, rfl⟩ := Prod.mk.inj hexec
            exact ⟨_, rfl, rfl⟩
          · cases hx
      | insertFalsePositive row =>
          refine h.quiet hk hN hans fun tx htx => ?_
          rcases hans with ⟨-, skip, hexec⟩ | ⟨-, -, e, hx⟩
          · simp only [Db.exec, Db.insertFalsePositive, htx] at hexec
            obtain ⟨-, rfl⟩ := Prod.mk.inj hexec
            exact ⟨_, rfl, rfl⟩
          · cases hx
      | _ => exact h.others hk hN hans rfl

end

namespace Sys

variable {s t : Sys W} {l : Label} {N : Int}

/-- What the checker's round has settled so far. -/
def marks (s : Sys W) : Marks :=
  (s.running .fcr_checker).elim Marks.none fun r => tallying.after Marks.none r.trace

/-- A round over a table in which the ids below `N` had been drawn before it began. -/
structure Resolving (lib : Externals) (N : Int) (s : Sys W) : Prop where
  coherent : s.Coherent lib
  keyed : s.shared.db.Keyed
  drawn : N ≤ s.shared.db.next_id
  resolved : s.shared.db.Resolved N s.marks

theorem marks_congr (h : t.running .fcr_checker = s.running .fcr_checker) : t.marks = s.marks := by
  rw [marks, marks, h]

theorem marks_of_idle (h : s.running .fcr_checker = none) : s.marks = Marks.none := by
  rw [marks, h]
  rfl

theorem marks_advance {r : Running} {e : Event Calls} {rest : Action (Option Nat)} {sh : Shared W}
    (hr : s.running .fcr_checker = some r) :
    (s.advance .fcr_checker r e rest sh).marks = s.marks.after e.op e.ans := by
  rw [marks, running_advance_self, marks, hr]
  exact Protocol.after_append _ _ _ _

/-- Without a call the table is as it was. -/
theorem resolved_of_same (h : s.Resolving lib N) (hdb : t.shared.db = s.shared.db)
    (hrunning : t.running .fcr_checker = s.running .fcr_checker ∨ t.marks = Marks.none) :
    t.shared.db.Resolved N t.marks := by
  rw [hdb]
  rcases hrunning with hsame | hnone
  · rw [marks_congr hsame]
    exact h.resolved
  · rw [hnone]
    exact Db.resolved_none N _

theorem Resolving.step (h : s.Resolving lib N) (hstep : s.Step lib l t) : t.Resolving lib N := by
  refine ⟨h.coherent.step hstep, hstep.keyed h.keyed, h.drawn.trans (hstep.next_id_le h.keyed), ?_⟩
  cases hstep with
  | index hidle => exact resolved_of_same h rfl (Or.inl (running_begin (by simp [Job.service])))
  | process hidle hsd =>
      exact resolved_of_same h rfl (Or.inl (running_begin (by simp [Job.service])))
  | recv hidle hch => exact resolved_of_same h rfl (Or.inl (running_begin (by simp [Job.service])))
  | check hidle hfcr =>
      refine resolved_of_same h rfl (Or.inr ?_)
      simp [marks, Sys.begin, Job.service, tallying]
  | @call v r o k x sh hr hrest hans =>
      by_cases hv : v = .fcr_checker
      · subst hv
        have hmarks : (s.advance .fcr_checker r ⟨o, x⟩ (k x) sh).marks = s.marks.after o x :=
          marks_advance hr
        rw [hmarks]
        cases hans with
        | db hans => exact h.resolved.answer h.keyed h.drawn hans
        | _ => exact h.resolved
      · have hmarks : (s.advance v r ⟨o, x⟩ (k x) sh).marks = s.marks :=
          marks_congr (running_advance (Ne.symm hv))
        rw [hmarks]
        cases hans with
        | db hans =>
            exact h.resolved.others h.keyed h.drawn hans (h.coherent.byChecker hr hrest hv)
        | _ => exact h.resolved
  | @finish v r result hr hrest =>
      by_cases hv : v = .fcr_checker
      · subst hv
        exact resolved_of_same h rfl (Or.inr (marks_of_idle (by simp [Sys.done])))
      · exact resolved_of_same h rfl (Or.inl (by simp [Sys.done, Ne.symm hv]))
  | panic hr hrest =>
      rw [marks_of_idle (s := s.down) rfl]
      exact Db.resolved_none N _
  | @restart cfg =>
      have hnone : (boot cfg { s.shared.db with tx := none } s.shared.world).marks = Marks.none :=
        marks_of_idle rfl
      rw [hnone]
      exact Db.resolved_none N _
  | _ => exact resolved_of_same h rfl (Or.inl rfl)

/-! ## What becomes of the pending rows -/

/-- In this step the checker gives the row of `id` its verdict: an UPDATE confirms it, or a
COMMIT reverts it. -/
def Judged (id : Int) (status : FcrStatus) (_past : List Label) (_s : Sys W) (l : Label)
    (t : Sys W) : Prop :=
  (∃ r, t.row? id = some r ∧ r.fcr_status = some status) ∧
    (status = .confirmed ∧
        (∃ modes n h k, l = .call .fcr_checker ⟨.db (.markConfirmed modes n h), .ok k⟩) ∨
      status = .reverted ∧ l = .call .fcr_checker ⟨.db .commit, .ok ()⟩)

/-- A row that is there keeps its status, or the checker gives it a verdict. -/
theorem Step.judged (hs : s.Coherent lib) (hk : s.shared.db.Keyed) (h : s.Step lib l t) {id : Int}
    (hid : id < s.shared.db.next_id) {r' : EventLog} (hr' : t.row? id = some r')
    (past : List Label) : ∃ r, s.row? id = some r ∧
      (r'.fcr_status = r.fcr_status ∨ ∃ status, r'.fcr_status = some status ∧
        Judged id status past s l t) := by
  rcases h.rowMove hk id with hsame | ⟨v, st, x, rfl, -, hmove⟩
  · exact ⟨r', hsame.symm.trans hr', Or.inl rfl⟩
  · have hchecker : st.byChecker = true → v = .fcr_checker := by
      intro hst
      cases h with
      | call hrun hrest _ =>
          by_contra hv
          rw [hs.byChecker hrun hrest hv] at hst
          cases hst
    rw [hr'] at hmove
    generalize hafter : some r' = after at hmove
    cases hmove with
    | same => exact ⟨r', hafter.symm, Or.inl rfl⟩
    | inserted hnew => exact absurd hnew hid.ne
    | deleted => cases hafter
    | claimed hr | staged hr | released hr =>
        obtain rfl := Option.some.inj hafter
        exact ⟨_, hr, Or.inl rfl⟩
    | confirmed hr _ =>
        obtain rfl := hchecker rfl
        obtain rfl := Option.some.inj hafter
        exact ⟨_, hr, Or.inr ⟨.confirmed, rfl, ⟨_, hr', rfl⟩,
          Or.inl ⟨rfl, _, _, _, _, rfl⟩⟩⟩
    | reverted hr _ =>
        obtain rfl := hchecker rfl
        obtain rfl := Option.some.inj hafter
        exact ⟨_, hr, Or.inr ⟨.reverted, rfl, ⟨_, hr', rfl⟩, Or.inr ⟨rfl, rfl⟩⟩⟩

/-- A row that was pending is gone, is pending still, or has got its verdict on the way. -/
def AccountedFor (lib : Externals) (s : Sys W) (ls : List Label) (t : Sys W) (id : Int) : Prop :=
  t.row? id = none ∨ ∃ r status, t.row? id = some r ∧ r.fcr_status = some status ∧
    (status = .pending ∨ (system lib W).Passed s ls t (Judged id status))

theorem accountedFor_of_run (hs : s.Coherent lib) (hk : s.shared.db.Keyed)
    (hrun : (system lib W).Run s ls t) {id : Int} {r : EventLog} (hr : s.row? id = some r)
    (hpending : r.fcr_status = some .pending) : AccountedFor lib s ls t id := by
  have hall : (t.Coherent lib ∧ t.shared.db.Keyed ∧ id < t.shared.db.next_id) ∧
      AccountedFor lib s ls t id := by
    induction hrun with
    | nil => exact ⟨⟨hs, hk, hk.lt_next_of_row? hr⟩, Or.inr ⟨r, _, hr, hpending, Or.inl rfl⟩⟩
    | @snoc ls m l u hrun hstep ih =>
        obtain ⟨⟨hm, hkm, hid⟩, haccounted⟩ := ih
        refine ⟨⟨hm.step hstep, Step.keyed hkm hstep,
          hid.trans_le (Step.next_id_le hkm hstep)⟩, ?_⟩
        cases hafter : u.row? id with
        | none => exact Or.inl hafter
        | some r' =>
            right
            obtain ⟨r₀, hr₀, hsame | ⟨status, hstatus, hjudged⟩⟩ :=
              Step.judged hm hkm hstep hid hafter ls
            · -- the row has kept its status, and how it came by it
              rcases haccounted with hgone | ⟨r₁, status, hr₁, hstatus, hhow⟩
              · rw [hgone] at hr₀
                cases hr₀
              · obtain rfl := Option.some.inj (hr₁.symm.trans hr₀)
                exact ⟨r', status, hafter, hsame.trans hstatus,
                  hhow.imp_right (·.snoc hstep)⟩
            · exact ⟨r', status, hafter, hstatus, Or.inr (.now hrun hstep hjudged)⟩
  exact hall.2

/-- What a completed cycle, with these calls of `check_chain`, has made of the rows. A row that
is pending still, with a block number and hash, is at a block that was not finalized, or for
which some lookup of the cycle has found no hash; and every row that was pending is accounted
for. -/
structure Decides (lib : Externals) (s : Sys W) (ls : List Label) (t : Sys W)
    (parts : List ((Chain × List String) × Trace Calls)) : Prop where
  pending : ∀ id old r n, s.row? id = some old → t.row? id = some r →
    r.fcr_status = some .pending → r.block_number = some n → r.block_hash ≠ none →
    ∀ p ∈ parts, r.bridge_mode ∈ bridgeModes p.1.1 →
      ∀ finalized_block lookup rest, p.2 = lookup ++ rest →
        Prog.Runs (getFinalizedBlockNumber (s.config.finalityRpcsForChain p.1.1).1
          (s.config.finalityRpcsForChain p.1.1).2) lookup (.ok finalized_block) →
        n ≤ finalized_block → Unavailable p.1.2 n p.2
  accounted : ∀ id old, s.row? id = some old → old.fcr_status = some .pending →
    AccountedFor lib s ls t id

/-- Every later cycle that is completed in the same process decides. -/
def Decided (lib : Externals) (s : Sys W) : Prop :=
  ∀ ls t round parts, s.running .fcr_checker = none → (uninterrupted lib W).Run s ls t →
    t.running .fcr_checker = some round → Completed s.config round.trace parts →
    s.Decides lib ls t parts

end Sys

/-- What one call of `check_chain` settles is settled by the round. -/
theorem FcrChecker.Completed.settles {cfg : Config} {tr : Trace Calls}
    {parts : List ((Chain × List String) × Trace Calls)} (h : Completed cfg tr parts)
    {p : (Chain × List String) × Trace Calls} (hp : p ∈ parts) {chain : Chain}
    {block : PendingBlock} (hsettles : Settles chain block p.2) : Settles chain block tr := by
  obtain ⟨before, after, rfl⟩ := List.append_of_mem hp
  rw [h.trace, List.map_append, List.flatten_append, List.map_cons, List.flatten_cons]
  exact hsettles.append_right.append_left

/-- What is still pending in a completed round, and was there before, was not to be had. -/
theorem Sys.Resolving.unavailable {t : Sys W} {N id : Int} (hresolving : t.Resolving lib N)
    (hwatch : t.Watching lib N) {cfg : Config} {round : Running}
    {parts : List ((Chain × List String) × Trace Calls)}
    (hround : t.running .fcr_checker = some round) (hcomplete : Completed cfg round.trace parts)
    {r : EventLog} {n : Int} (hr : t.row? id = some r) (hid : id < N)
    (hpending : r.fcr_status = some .pending) (hn : r.block_number = some n)
    (hhash : r.block_hash ≠ none) {p : (Chain × List String) × Trace Calls} (hp : p ∈ parts)
    (hmode : r.bridge_mode ∈ bridgeModes p.1.1) {finalized_block : Int} {lookup rest : Trace Calls}
    (htr : p.2 = lookup ++ rest)
    (hlookup : Prog.Runs (getFinalizedBlockNumber (cfg.finalityRpcsForChain p.1.1).1
      (cfg.finalityRpcsForChain p.1.1).2) lookup (.ok finalized_block))
    (hle : n ≤ finalized_block) : Unavailable p.1.2 n p.2 := by
  obtain ⟨lookup', finalized_block', rest', rows, htr', hlookup', hselect, hall⟩ :=
    settles_of_checkChain (hcomplete.returned p hp)
  -- one call finds one number finalized
  obtain ⟨-, heq⟩ := Prog.Runs.unique hlookup' hlookup (htr'.symm.trans htr)
  obtain rfl := Except.ok.inj heq
  obtain ⟨b, hb⟩ := Option.ne_none_iff_exists'.mp hhash
  have hmem : ⟨.db (.selectPendingBlocks (bridgeModes p.1.1) finalized_block'), .ok rows⟩ ∈
      round.trace := by
    rw [hcomplete.trace]
    exact List.mem_flatten.mpr ⟨_, List.mem_map_of_mem hp, hselect⟩
  have hrow : (n, b) ∈ rows :=
    hwatch.selected round hround id r _ _ rows n b hr hid hpending hmem hmode hn hle hb
  rcases hall _ hrow with hsettles | hunavailable
  · have hsettled : targetOf p.1.1 ⟨n, b⟩ ∈ t.marks.settled := by
      rw [Sys.marks, hround]
      exact hcomplete.settles hp hsettles Marks.none
    have hcovers : (targetOf p.1.1 ⟨n, b⟩).covers r = true := by
      simp [Target.covers, targetOf, EventLog.isPendingAt, EventLog.isPendingOf, hmode, hpending,
        hn, hb]
    cases (hresolving.resolved.settled id r _ hr hid hsettled).symm.trans hcovers
  · exact hunavailable

/-- Between two cycles nothing has been selected and nothing settled. -/
theorem Sys.resolving_of_idle {s : Sys W} (h : (system lib W).Reachable s)
    (hidle : s.running .fcr_checker = none) :
    s.Resolving lib s.shared.db.next_id ∧ s.Watching lib s.shared.db.next_id := by
  have hs := coherent_of_reachable h
  have hk := (owned_of_reachable h).keyed
  refine ⟨⟨hs, hk, le_rfl, ?_⟩, hs, hk, le_rfl, fun r hr => ?_⟩
  · rw [Sys.marks_of_idle hidle]
    exact Db.resolved_none _ _
  · rw [hidle] at hr
    cases hr

/-- **A completed cycle decides.** Whatever happens to the rows and between its calls, it
leaves a finalized row pending only where no hash was to be had, and those that are pending no
more it has confirmed or reverted. -/
theorem completed_cycle_decides {s : Sys W} (h : (system lib W).Reachable s) : s.Decided lib := by
  intro ls t round parts hidle hrun hround hcomplete
  have hk := (owned_of_reachable h).keyed
  constructor
  · intro id old r n hold hr hpending hn hhash p hp hmode finalized_block lookup rest htr hlookup
      hle
    obtain ⟨hresolving, hwatch⟩ := Sys.resolving_of_idle h hidle
    have hresolving' : t.Resolving lib s.shared.db.next_id :=
      hrun.invariant (fun m l u hm hstep => hm.step hstep.1) hresolving
    have hwatch' : t.Watching lib s.shared.db.next_id :=
      hrun.invariant (fun m l u hm hstep => hm.step hstep.1) hwatch
    exact hresolving'.unavailable hwatch' hround hcomplete hr (hk.lt_next_of_row? hold) hpending hn
      hhash hp hmode htr hlookup hle
  · intro id old hold hpending
    exact Sys.accountedFor_of_run (coherent_of_reachable h) hk hrun.of_guarded hold hpending

open Deployment in
/-- A pending row, and a completed cycle in which it is confirmed. -/
theorem completed_cycle_decides_confirmed :
    ∃ (s t : Sys World.any) (ls : List Label) (round : Running)
      (parts : List ((Chain × List String) × Trace Calls)),
      (∃ r ∈ s.shared.db.event_logs, r.fcr_status = some .pending) ∧
      (uninterrupted externals World.any).Run s ls t ∧ t.running .fcr_checker = some round ∧
      Completed s.config round.trace parts ∧ s.Decides externals ls t parts ∧
      ∃ r ∈ t.shared.db.event_logs, r.fcr_status = some .confirmed := by
  obtain ⟨s, hreach, hpending, -, hp⟩ := exists_pending (fun _ _ => True)
    (p := fun s => (s.running .fcr_checker).isNone && !s.exited .fcr_checker &&
      (s.config.fcrChains == [(.eth, config.eth_rpc)]) &&
      checksTo (lookups (.repeatByte 32 0xaa)) .confirmed s) (by decide +kernel)
  simp only [Bool.and_eq_true, Option.isNone_iff_eq_none, Bool.not_eq_eq_eq_not, Bool.not_true,
    beq_iff_eq] at hp
  obtain ⟨⟨⟨hidle, hlive⟩, hone⟩, hchecks⟩ := hp
  obtain ⟨ls, t, round, parts, hrun, hround, hcomplete, hconfirmed⟩ :=
    exists_completed_of_checksTo ⟨hidle, hlive⟩ hone hchecks
  have hdecides := completed_cycle_decides (reachable_of_lifetimes hreach) ls t round parts hidle
    hrun hround hcomplete
  exact ⟨s, t, ls, round, parts, hpending, hrun, hround, hcomplete, hdecides, hconfirmed⟩

end BridgeValidator
