import BridgeValidator.Roles
import BridgeValidator.Rounds
import BridgeValidator.Rows
import BridgeValidator.SafeProbe
import BridgeValidator.Framework.Transition

/-!
# What `check_chain` does to the tables

With nobody else writing, a call of `check_chain` settles every row that is due and
has a canonical hash to be compared with, writes one audit row for each that it
reverts, and leaves everything else alone. A failing statement ends it between two
blocks, so each block is settled as a whole or not at all.
-/

namespace BridgeValidator

open Interaction

/-! ## The rows that are due -/

/-- One call of `check_chain`: what it is called with, what it finds finalized, and
what the providers answer by number. -/
structure Check where
  chain : Chain
  el_rpcs : List String
  finalized_block : Int
  response : String → Int → HttpResponse

/-- The hash of the first provider that has one for the number. -/
def firstHash (response : String → Int → HttpResponse) (block_number : Int)
    (el_rpcs : List String) : Option String :=
  el_rpcs.findSome? fun el_rpc =>
    match readHashAnswer (response el_rpc block_number) with
    | .hash h => some h
    | _ => none

/-- The row is of this block. -/
def EventLog.isOf (block : PendingBlock) (r : EventLog) : Bool :=
  r.block_number == some block.block_number && r.block_hash == some block.stored_block_hash

namespace Check

variable (c : Check)

def canonicalHash (block_number : Int) : Option String :=
  firstHash c.response block_number c.el_rpcs

/-- The first provider in order whose answer gives a hash for the number gives this one. -/
def FirstHash (block_number : Int) (hash : String) : Prop :=
  ∃ before el_rpc after, c.el_rpcs = before ++ el_rpc :: after ∧
    (c.response el_rpc block_number).GivesHash hash ∧
    ∀ url ∈ before, ∀ h, ¬ (c.response url block_number).GivesHash h

/-- The block of a pending finalized row, and the hash it is to be compared with. -/
def finding (r : EventLog) : Option (PendingBlock × String) :=
  if r.isPendingOf (FcrChecker.bridgeModes c.chain) && r.isUpTo c.finalized_block then
    match r.block_number, r.block_hash with
    | some n, some stored => (c.canonicalHash n).map fun h => (⟨n, stored⟩, h)
    | _, _ => none
  else none

/-- The row after its verdict. -/
def settle (r : EventLog) : EventLog :=
  match c.finding r with
  | some (block, h) =>
      r.withStatus (if eqIgnoreAsciiCase h block.stored_block_hash then .confirmed else .reverted)
  | none => r

/-- The audit row of a row that is reverted. -/
def auditRow (r : EventLog) : Option FalsePositive :=
  match c.finding r with
  | some (block, h) =>
      if eqIgnoreAsciiCase h block.stored_block_hash then none
      else some { chain := c.chain, block_number := block.block_number,
                  stored_block_hash := block.stored_block_hash, canonical_block_hash := some h,
                  transaction_hash := r.transaction_hash, log_index := r.log_index,
                  event_log_id := r.id, detected_at_finalized := c.finalized_block }
  | none => none

/-- The verdict on a block. -/
def verdict (block : PendingBlock) : BlockVerdict :=
  match c.canonicalHash block.block_number with
  | some h => if eqIgnoreAsciiCase h block.stored_block_hash then .Confirmed else .Reverted h
  | none => .Unavailable

/-- The rows of these blocks are settled. -/
def settleIn (blocks : List PendingBlock) (r : EventLog) : EventLog :=
  if blocks.any fun block => r.isOf block then c.settle r else r

def auditIn (blocks : List PendingBlock) (r : EventLog) : Option FalsePositive :=
  if blocks.any fun block => r.isOf block then c.auditRow r else none

/-- The tables after these blocks have been settled. -/
structure Adjudicated (blocks : List PendingBlock) (db db' : Db) : Prop where
  rows : db'.event_logs = db.event_logs.map (c.settleIn blocks)
  audited : ∃ new, db'.fcr_false_positives = db.fcr_false_positives ++ new ∧
    new.Perm (db.event_logs.filterMap (c.auditIn blocks))
  next_id : db'.next_id = db.next_id
  tx : db'.tx = none

variable {c : Check} {r : EventLog} {block : PendingBlock} {blocks blocks' : List PendingBlock}
  {db db' db'' : Db} {h : String}

/-! ## Settling -/

/-- What the checker compares with is the first hash that is given, in lower case. -/
theorem canonicalHash_eq_some {n : Int} :
    c.canonicalHash n = some h ↔ ∃ hash, c.FirstHash n hash ∧ h = toAsciiLowercase hash := by
  have hread : ∀ el_rpc h', (match readHashAnswer (c.response el_rpc n) with
      | .hash h => some h
      | _ => none) = some h' ↔
        ∃ hash, (c.response el_rpc n).GivesHash hash ∧ h' = toAsciiLowercase hash := by
    intro el_rpc h'
    rw [← readHashAnswer_eq_hash]
    cases readHashAnswer (c.response el_rpc n) <;> simp
  -- the walk stops at the first answer that reads as a hash, which is the first that gives one
  rw [canonicalHash, firstHash, List.findSome?_eq_some_iff]
  constructor
  · rintro ⟨before, el_rpc, after, hrpcs, hsome, hbefore⟩
    obtain ⟨hash, hgives, rfl⟩ := (hread el_rpc h).mp hsome
    refine ⟨hash, ⟨before, el_rpc, after, hrpcs, hgives, ?_⟩, rfl⟩
    intro url hurl h' hgives'
    have hread' := (hread url _).mpr ⟨h', hgives', rfl⟩
    rw [hbefore url hurl] at hread'
    cases hread'
  · rintro ⟨hash, ⟨before, el_rpc, after, hrpcs, hgives, hbefore⟩, rfl⟩
    refine ⟨before, el_rpc, after, hrpcs, (hread el_rpc _).mpr ⟨hash, hgives, rfl⟩, ?_⟩
    intro url hurl
    rw [Option.eq_none_iff_forall_ne_some]
    intro h' hsome
    obtain ⟨hash', hgives', -⟩ := (hread url h').mp hsome
    exact hbefore url hurl hash' hgives'

theorem canonicalHash_isSome {n : Int} :
    (c.canonicalHash n).isSome = true ↔ ∃ hash, c.FirstHash n hash := by
  rw [Option.isSome_iff_exists]
  constructor
  · rintro ⟨h, hsome⟩
    obtain ⟨hash, hfirst, -⟩ := canonicalHash_eq_some.mp hsome
    exact ⟨hash, hfirst⟩
  · rintro ⟨hash, hfirst⟩
    exact ⟨_, canonicalHash_eq_some.mpr ⟨hash, hfirst, rfl⟩⟩

theorem finding_eq_some : c.finding r = some (block, h) ↔
    r.bridge_mode ∈ FcrChecker.bridgeModes c.chain ∧ r.fcr_status = some .pending ∧
    r.block_number = some block.block_number ∧ block.block_number ≤ c.finalized_block ∧
    r.block_hash = some block.stored_block_hash ∧
    c.canonicalHash block.block_number = some h := by
  obtain ⟨n, stored⟩ := block
  unfold finding
  constructor
  · intro hsome
    split at hsome
    · rename_i hdue
      simp only [EventLog.isPendingOf, Bool.and_eq_true, decide_eq_true_eq, beq_iff_eq] at hdue
      obtain ⟨⟨hmode, hpending⟩, hupTo⟩ := hdue
      split at hsome
      · rename_i n' stored' hn hstored
        obtain ⟨h', hcanonical, heq⟩ := Option.map_eq_some_iff.mp hsome
        cases heq
        rw [EventLog.isUpTo, hn] at hupTo
        exact ⟨hmode, hpending, hn, of_decide_eq_true hupTo, hstored, hcanonical⟩
      · cases hsome
    · cases hsome
  · rintro ⟨hmode, hpending, hn, hle, hstored, hcanonical⟩
    simp [EventLog.isPendingOf, EventLog.isUpTo, hmode, hpending, hn, hle, hstored, hcanonical]

theorem settle_of_finding (hf : c.finding r = none) : c.settle r = r := by
  rw [settle, hf]

/-- A settled row is due no more. -/
theorem finding_settle : c.finding (c.settle r) = none := by
  cases hf : c.finding r with
  | none => rw [settle_of_finding hf, hf]
  | some p =>
      obtain ⟨block, h⟩ := p
      by_contra hdue
      obtain ⟨⟨block', h'⟩, hf'⟩ := Option.ne_none_iff_exists'.mp hdue
      have hpending := (finding_eq_some.mp hf').2.1
      rw [settle, hf] at hpending
      simp only [EventLog.withStatus_fcr_status] at hpending
      split at hpending <;> cases hpending

theorem settle_settle : c.settle (c.settle r) = c.settle r := settle_of_finding finding_settle

theorem auditRow_settle : c.auditRow (c.settle r) = none := by
  rw [auditRow, finding_settle]

/-- Settling touches the status only. -/
theorem isOf_settle : (c.settle r).isOf block = r.isOf block := by
  unfold settle
  split <;> rfl

theorem settleIn_append :
    c.settleIn blocks' (c.settleIn blocks r) = c.settleIn (blocks ++ blocks') r := by
  unfold settleIn
  rw [List.any_append]
  cases hin : blocks.any fun block => r.isOf block with
  | false => simp
  | true => simp [isOf_settle, settle_settle]

/-- A row gets its audit row when its block comes up first. -/
theorem auditIn_append :
    c.auditIn (blocks ++ blocks') r = c.auditIn blocks r ∧
      c.auditIn blocks' (c.settleIn blocks r) = none ∨
    c.auditIn blocks r = none ∧
      c.auditIn (blocks ++ blocks') r = c.auditIn blocks' (c.settleIn blocks r) := by
  unfold auditIn settleIn
  rw [List.any_append]
  cases hin : blocks.any fun block => r.isOf block with
  | false =>
      right
      simp
  | true =>
      left
      simp [auditRow_settle]

theorem Adjudicated.refl (htx : db.tx = none) : c.Adjudicated [] db db where
  rows := (List.map_id _).symm
  audited := by
    refine ⟨[], (List.append_nil _).symm, ?_⟩
    have hnone : c.auditIn [] = fun _ => none := rfl
    rw [hnone, List.filterMap_none]
  next_id := rfl
  tx := htx

theorem Adjudicated.append (h : c.Adjudicated blocks db db') (h' : c.Adjudicated blocks' db' db'') :
    c.Adjudicated (blocks ++ blocks') db db'' := by
  obtain ⟨new, hnew, hperm⟩ := h.audited
  obtain ⟨new', hnew', hperm'⟩ := h'.audited
  constructor
  · rw [h'.rows, h.rows, List.map_map]
    refine List.map_congr_left fun r _ => ?_
    exact settleIn_append
  · refine ⟨new ++ new', ?_, ?_⟩
    · rw [hnew', hnew, List.append_assoc]
    · apply (hperm.append hperm').trans
      rw [h.rows, List.filterMap_map]
      exact filterMap_append_perm fun r _ => auditIn_append
  · rw [h'.next_id, h.next_id]
  · exact h'.tx

end Check

/-! ## Alone with the database -/

/-- A lookup by number. -/
def Rpc.isByNumber : Rpc → Bool
  | .ethGetBlockByNumber _ (.number _) => true
  | _ => false

/-- The calls of a service that is alone with the database: lookups by number are
answered by `response`, what else it asks is answered somehow, and only its own
statements change the tables. -/
inductive Db.Alone (response : String → Int → HttpResponse) (db : Db) :
    (o : Op) → o.Ans → Db → Prop
  | lookup {el_rpc n} :
      Alone response db (.rpc (.ethGetBlockByNumber el_rpc (.number n))) (response el_rpc n) db
  | other {rq x} (h : rq.isByNumber = false) : Alone response db (.rpc rq) x db
  | channel {data x} : Alone response db (.channelSend data) x db
  | statement {st x db'} (h : db.Answers st x db') : Alone response db (.db st) x db'

/-- A refused statement has no effect. -/
theorem Db.exec_error {db db' : Db} {skip : Int → Bool} {st : Stmt} {e : String}
    (h : db.exec skip st = (.error e, db')) : db' = db := by
  cases st with
  | insertEventLog n =>
      simp only [exec, insertEventLog] at h
      split at h
      · split at h <;> cases h
      · cases h
        rfl
  | incrementRetryCount id =>
      simp only [exec, incrementRetryCount] at h
      split at h <;> cases h
      rfl
  | selectAffected =>
      simp only [exec, selectAffected] at h
      split at h <;> cases h
      rfl
  | insertFalsePositive =>
      simp only [exec, insertFalsePositive] at h
      split at h <;> cases h
      rfl
  | markReverted =>
      simp only [exec, markReverted] at h
      split at h <;> cases h
      rfl
  | commit =>
      simp only [exec, commit] at h
      split at h <;> cases h
      rfl
  | claim => cases (Prod.mk.inj h).1
  | _ => cases h

namespace FcrChecker

/-- The tables as the ghost state. A claim is not the checker's business. -/
def alone (response : String → Int → HttpResponse) : Protocol Calls Db where
  allows _
    | .db (.claim _) => False
    | .channelSend _ => False
    | _ => True
  admits db
    | .rpc (.ethGetBlockByNumber el_rpc (.number n)), x => x = response el_rpc n
    | .db st, x => (db.exec (fun _ => false) st).1 = x ∨ st.mayFail = true ∧ ∃ e, x = .error e
    | _, _ => True
  next db
    | .db st, .ok _ => (db.exec (fun _ => false) st).2
    | _, _ => db

variable {response : String → Int → HttpResponse} {db db' : Db}

theorem alone_of_answers {o : Op} {x : o.Ans} (hallow : (alone response).allows db o)
    (h : db.Alone response o x db') :
    (alone response).admits db o x ∧ (alone response).next db o x = db' := by
  cases h with
  | lookup => exact ⟨rfl, rfl⟩
  | @other rq x h =>
      cases rq with
      | ethGetBlockByNumber el_rpc tag =>
          cases tag with
          | number n => cases h
          | _ => exact ⟨trivial, rfl⟩
      | _ => exact ⟨trivial, rfl⟩
  | channel => exact hallow.elim
  | @statement st x db' h =>
      rcases h with ⟨-, skip, hexec⟩ | ⟨hfail, rfl, e, rfl⟩
      · have hskip : db.exec skip st = db.exec (fun _ => false) st := by
          cases st with
          | claim => exact hallow.elim
          | _ => rfl
        cases x with
        | error e => exact ⟨Or.inl (by rw [← hskip, hexec]), (Db.exec_error hexec).symm⟩
        | ok a => exact ⟨Or.inl (by rw [← hskip, hexec]), by
            show (db.exec (fun _ => false) st).2 = db'
            rw [← hskip, hexec]⟩
      · exact ⟨Or.inr ⟨hfail, e, rfl⟩, rfl⟩

theorem alone_ignoresLookups : IgnoresLookups (alone response) where
  beacon _ _ := ⟨trivial, fun _ => rfl⟩
  el _ _ _ := ⟨trivial, fun _ => rfl⟩

/-! ## The verdict -/

variable {c : Check} {block : PendingBlock}

theorem alone_hashFromElRpcs {n : Int} (any_provider_answered : Bool) (el_rpcs : List String) :
    Act.Follows (alone response) db (hashFromElRpcs n any_provider_answered el_rpcs)
      fun db' r => db' = db ∧ match firstHash response n el_rpcs with
        | some h => r = .ok (some h)
        | none => r = .ok none ∨ ∃ e, r = .error (.error e) := by
  induction el_rpcs generalizing any_provider_answered with
  | nil =>
      cases any_provider_answered with
      | true => exact ⟨rfl, Or.inl rfl⟩
      | false => exact ⟨rfl, Or.inr ⟨_, rfl⟩⟩
  | cons el_rpc rest ih =>
      refine Act.follows_bind.mpr (follows_await.mpr ⟨trivial, fun x hx => ?_⟩)
      obtain rfl : x = response el_rpc n := hx
      rw [firstHash, List.findSome?_cons]
      dsimp only
      cases readHashAnswer (response el_rpc n) with
      | failed => exact ih _
      | noHash => exact ih _
      | hash h => exact ⟨rfl, rfl⟩

theorem alone_verdictFor : Act.Follows (alone c.response) db (verdictFor c.el_rpcs block)
    fun db' r => db' = db ∧ r = .ok (c.verdict block) := by
  refine Act.follows_bind.mpr (Act.follows_attempt.mpr ((alone_hashFromElRpcs _ _).mono ?_))
  have hverdict : c.verdict block = match firstHash c.response block.block_number c.el_rpcs with
      | some h =>
          if eqIgnoreAsciiCase h block.stored_block_hash then .Confirmed else .Reverted h
      | none => .Unavailable := rfl
  rw [hverdict]
  rintro db' r ⟨rfl, hfound⟩
  cases hhash : firstHash c.response block.block_number c.el_rpcs with
  | some h =>
      rw [hhash] at hfound
      subst hfound
      refine Act.follows_ite.mpr ⟨fun heq => ?_, fun hne => ?_⟩
      · simp only [if_pos heq]
        exact ⟨rfl, rfl⟩
      · simp only [if_neg hne]
        exact ⟨rfl, rfl⟩
  | none =>
      rw [hhash] at hfound
      rcases hfound with rfl | ⟨e, rfl⟩
      · exact ⟨rfl, rfl⟩
      · exact ⟨rfl, rfl⟩

/-! ## The transaction -/

/-- The audit row of a selected row. -/
def falsePositive (chain : Chain) (block : PendingBlock) (canonical_block_hash : Option String)
    (finalized_block : Int) (row : Int × Option String × Option Int) : FalsePositive :=
  { chain, block_number := block.block_number, stored_block_hash := block.stored_block_hash,
    canonical_block_hash, transaction_hash := row.2.1, log_index := row.2.2,
    event_log_id := row.1, detected_at_finalized := finalized_block }

/-- What the transaction leaves behind when it commits. -/
def reverting (chain : Chain) (block : PendingBlock) (canonical_block_hash : Option String)
    (finalized_block : Int) (db : Db) : Db :=
  let affected := db.affected (bridgeModes chain) block.block_number block.stored_block_hash
  { db.update (fun r => decide (r.id ∈ affected.map EventLog.id))
      (EventLog.withStatus .reverted) with
    fcr_false_positives := db.fcr_false_positives ++ affected.map fun r =>
      falsePositive chain block canonical_block_hash finalized_block
        (r.id, r.transaction_hash, r.log_index)
    tx := none }

variable {chain : Chain} {canonical_block_hash : Option String} {finalized_block : Int}

theorem alone_insertFalsePositives {tx : Tx} (rows : List (Int × Option String × Option Int)) :
    Act.Follows (alone response) { db with tx := some tx }
      (insertFalsePositives chain block canonical_block_hash finalized_block rows)
      fun db' r => (r = .ok () ∧ db' = { db with tx := some { tx with
          inserted := tx.inserted ++ rows.map
            (falsePositive chain block canonical_block_hash finalized_block) } }) ∨
        ∃ e tx', r = .error (.error e) ∧ db' = { db with tx := some tx' } := by
  induction rows generalizing tx with
  | nil => exact Or.inl ⟨rfl, by simp⟩
  | cons row rest ih =>
      obtain ⟨event_log_id, transaction_hash, log_index⟩ := row
      refine Act.follows_bind.mpr (follows_sql.mpr ⟨trivial, fun _ _ => ?_, fun e _ => ?_⟩)
      · apply ih.mono
        rintro db' r (⟨rfl, rfl⟩ | hfailed)
        · left
          simp [falsePositive]
        · exact Or.inr hfailed
      · exact Or.inr ⟨_, tx, rfl, rfl⟩

/-- The transaction happens as a whole or not at all. -/
theorem alone_recordFalsePositive (htx : db.tx = none) :
    Act.Follows (alone response) db
      (recordFalsePositive chain block canonical_block_hash finalized_block)
      fun db' r => (r = .ok () ∧
          db' = reverting chain block canonical_block_hash finalized_block db) ∨
        (∃ e, r = .error (.error e)) ∧ db' = db := by
  have hclosed : { db with tx := none } = db := by
    cases db
    cases htx
    rfl
  -- an error inside the transaction rolls it back
  have hrollback : ∀ (tx : Tx) (e : BridgeValidatorError),
      Act.Follows (alone response) { db with tx := some tx }
        (do let _ ← await (.db .rollback)
            Act.throw e : Action Unit) fun db' r => (r = .ok () ∧
          db' = reverting chain block canonical_block_hash finalized_block db) ∨
        (∃ e, r = .error (.error e)) ∧ db' = db := by
    intro tx e
    refine Act.follows_bind.mpr (follows_await.mpr ⟨trivial, fun x hx => ?_⟩)
    refine Or.inr ⟨⟨e, rfl⟩, ?_⟩
    rcases hx with hx | ⟨hfail, -⟩
    · obtain rfl : x = .ok () := hx.symm
      exact hclosed
    · cases hfail
  refine Act.follows_bind.mpr (follows_sql.mpr ⟨trivial, fun _ _ => ?_, fun e _ => ?_⟩)
  · refine Act.follows_bind.mpr (Act.follows_attempt.mpr ?_)
    refine Act.follows_bind.mpr (follows_sql.mpr ⟨trivial, fun affected haff => ?_, fun e _ => ?_⟩)
    · have haffected : affected = (db.affected (bridgeModes chain) block.block_number
          block.stored_block_hash).map fun r => (r.id, r.transaction_hash, r.log_index) := by
        rcases haff with haff | ⟨-, e, he⟩
        · exact (Except.ok.inj haff).symm
        · cases he
      subst haffected
      refine Act.follows_bind.mpr ((alone_insertFalsePositives _).mono ?_)
      rintro db' r (⟨rfl, rfl⟩ | ⟨e, tx', rfl, rfl⟩)
      · refine Act.follows_bind.mpr (follows_sql.mpr ⟨trivial, fun _ _ => ?_, fun e _ => ?_⟩)
        · refine follows_sql.mpr ⟨trivial, fun _ _ => ?_, fun e _ => ?_⟩
          · left
            refine ⟨rfl, ?_⟩
            simp only [alone, Db.exec, Db.markReverted, Db.commit, Db.affected, reverting,
              List.nil_append, List.map_map]
            rfl
          · exact hrollback _ _
        · exact hrollback _ _
      · exact hrollback _ _
    · exact hrollback _ _
  · exact Or.inr ⟨⟨_, rfl⟩, rfl⟩

end FcrChecker

/-! ## One block -/

namespace Check

open FcrChecker

variable {c : Check} {block : PendingBlock} {r : EventLog} {db db' : Db} {h : String}

/-- A row that the statements for a block match is due under that block. -/
theorem finding_of_isPendingAt (hle : block.block_number ≤ c.finalized_block)
    (hr : r.isPendingAt (bridgeModes c.chain) block.block_number block.stored_block_hash = true) :
    c.finding r = (c.canonicalHash block.block_number).map fun h => (block, h) := by
  simp only [EventLog.isPendingAt, Bool.and_eq_true, beq_iff_eq] at hr
  obtain ⟨⟨hpending, hn⟩, hstored⟩ := hr
  simp [finding, hpending, EventLog.isUpTo, hn, hle, hstored]

theorem isOf_of_isPendingAt
    (hr : r.isPendingAt (bridgeModes c.chain) block.block_number block.stored_block_hash = true) :
    r.isOf block = true := by
  simp only [EventLog.isPendingAt, Bool.and_eq_true] at hr
  simp [EventLog.isOf, hr.1.2, hr.2]

/-- No other row is settled with the block. -/
theorem finding_of_not_isPendingAt (hof : r.isOf block = true)
    (hr : r.isPendingAt (bridgeModes c.chain) block.block_number block.stored_block_hash = false) :
    c.finding r = none := by
  have hpending : r.isPendingOf (bridgeModes c.chain) = false := by
    simp only [EventLog.isOf, Bool.and_eq_true] at hof
    simpa [EventLog.isPendingAt, hof.1, hof.2] using hr
  rw [finding, hpending, Bool.false_and, if_neg Bool.false_ne_true]

/-- What becomes of the rows of one block, by its verdict. -/
theorem settleIn_single (hle : block.block_number ≤ c.finalized_block) :
    c.settleIn [block] r =
      if r.isPendingAt (bridgeModes c.chain) block.block_number block.stored_block_hash then
        match c.verdict block with
        | .Confirmed => r.withStatus .confirmed
        | .Reverted _ => r.withStatus .reverted
        | .Unavailable => r
      else r := by
  unfold settleIn
  rw [List.any_cons, List.any_nil, Bool.or_false]
  cases hr : r.isPendingAt (bridgeModes c.chain) block.block_number block.stored_block_hash with
  | true =>
      rw [if_pos (isOf_of_isPendingAt hr), if_pos rfl, settle, finding_of_isPendingAt hle hr,
        verdict]
      cases c.canonicalHash block.block_number with
      | none => rfl
      | some h =>
          simp only [Option.map_some]
          split <;> rfl
  | false =>
      rw [if_neg Bool.false_ne_true]
      split
      · rename_i hof
        exact settle_of_finding (finding_of_not_isPendingAt hof hr)
      · rfl

theorem auditIn_single (hle : block.block_number ≤ c.finalized_block) :
    c.auditIn [block] r =
      if r.isPendingAt (bridgeModes c.chain) block.block_number block.stored_block_hash then
        match c.verdict block with
        | .Reverted h => some (falsePositive c.chain block (some h) c.finalized_block
            (r.id, r.transaction_hash, r.log_index))
        | _ => none
      else none := by
  unfold auditIn
  rw [List.any_cons, List.any_nil, Bool.or_false]
  cases hr : r.isPendingAt (bridgeModes c.chain) block.block_number block.stored_block_hash with
  | true =>
      rw [if_pos (isOf_of_isPendingAt hr), if_pos rfl, auditRow, finding_of_isPendingAt hle hr,
        verdict]
      cases c.canonicalHash block.block_number with
      | none => rfl
      | some h =>
          simp only [Option.map_some]
          split <;> rfl
  | false =>
      rw [if_neg Bool.false_ne_true]
      split
      · rename_i hof
        rw [auditRow, finding_of_not_isPendingAt hof hr]
      · rfl

/-- Without a canonical hash the block stays as it is. -/
theorem adjudicated_unavailable (hle : block.block_number ≤ c.finalized_block)
    (hv : c.verdict block = .Unavailable) (htx : db.tx = none) :
    c.Adjudicated [block] db db := by
  have hsettle : c.settleIn [block] = id := by
    funext r
    rw [settleIn_single hle, hv]
    exact ite_self r
  have haudit : c.auditIn [block] = fun _ => none := by
    funext r
    rw [auditIn_single hle, hv]
    exact ite_self none
  constructor
  · rw [hsettle, List.map_id]
  · refine ⟨[], (List.append_nil _).symm, ?_⟩
    rw [haudit, List.filterMap_none]
  · rfl
  · exact htx

theorem adjudicated_confirmed (hle : block.block_number ≤ c.finalized_block)
    (hv : c.verdict block = .Confirmed) (htx : db.tx = none) :
    c.Adjudicated [block] db
      (db.markConfirmed (bridgeModes c.chain) block.block_number block.stored_block_hash) := by
  have haudit : c.auditIn [block] = fun _ => none := by
    funext r
    rw [auditIn_single hle, hv]
    exact ite_self none
  constructor
  · refine List.map_congr_left fun r _ => ?_
    rw [settleIn_single hle, hv]
  · refine ⟨[], (List.append_nil _).symm, ?_⟩
    rw [haudit, List.filterMap_none]
  · rfl
  · exact htx

theorem adjudicated_reverted (hle : block.block_number ≤ c.finalized_block)
    (hv : c.verdict block = .Reverted h) (hnodup : (db.event_logs.map EventLog.id).Nodup) :
    c.Adjudicated [block] db
      (reverting c.chain block (some h) c.finalized_block db) := by
  constructor
  · refine List.map_congr_left fun r hr => ?_
    rw [settleIn_single hle, hv]
    -- the ids that were collected are those of the matching rows
    have hiff : r.id ∈ (db.affected (bridgeModes c.chain) block.block_number
        block.stored_block_hash).map EventLog.id ↔
        r.isPendingAt (bridgeModes c.chain) block.block_number block.stored_block_hash = true := by
      rw [List.mem_map]
      constructor
      · rintro ⟨r', hr', hid⟩
        obtain ⟨hmem, hpending⟩ := List.mem_filter.mp hr'
        obtain rfl := List.inj_on_of_nodup_map hnodup hmem hr hid
        exact hpending
      · intro hpending
        exact ⟨r, List.mem_filter.mpr ⟨hr, hpending⟩, rfl⟩
    simp only [decide_eq_true_eq, hiff]
  · refine ⟨_, rfl, ?_⟩
    have haudit : c.auditIn [block] = fun r =>
        if r.isPendingAt (bridgeModes c.chain) block.block_number block.stored_block_hash then
          some (falsePositive c.chain block (some h) c.finalized_block
            (r.id, r.transaction_hash, r.log_index))
        else none := by
      funext r
      rw [auditIn_single hle, hv]
    rw [haudit, Db.affected, ← List.filterMap_eq_map', List.filterMap_filter]
  · rfl
  · rfl

/-! ## All blocks -/

/-- Ids stay unique. -/
theorem Adjudicated.nodup {blocks : List PendingBlock} (h : c.Adjudicated blocks db db')
    (hnodup : (db.event_logs.map EventLog.id).Nodup) :
    (db'.event_logs.map EventLog.id).Nodup := by
  have hid : ∀ r, (c.settleIn blocks r).id = r.id := by
    intro r
    unfold settleIn settle
    split
    · split <;> rfl
    · rfl
  have hsame : EventLog.id ∘ c.settleIn blocks = EventLog.id := funext hid
  rw [h.rows, List.map_map, hsame]
  exact hnodup

/-- A block is settled, or a statement has failed and nothing has happened. -/
theorem follows_adjudicate (hle : block.block_number ≤ c.finalized_block) (htx : db.tx = none)
    (hnodup : (db.event_logs.map EventLog.id).Nodup) :
    Act.Follows (alone c.response) db (adjudicate c.chain c.el_rpcs c.finalized_block block)
      fun db' r => (r = .ok () ∧ c.Adjudicated [block] db db') ∨
        (∃ e, r = .error (.error e)) ∧ db' = db := by
  refine Act.follows_bind.mpr (alone_verdictFor.mono ?_)
  rintro db' r ⟨rfl, rfl⟩
  dsimp only
  cases hv : c.verdict block with
  | Confirmed =>
      refine Act.follows_bind.mpr (follows_sql.mpr ⟨trivial, fun _ _ => ?_, fun e _ => ?_⟩)
      · exact Or.inl ⟨rfl, adjudicated_confirmed hle hv htx⟩
      · exact Or.inr ⟨⟨_, rfl⟩, rfl⟩
  | Reverted h =>
      apply (alone_recordFalsePositive htx).mono
      rintro db'' r (⟨rfl, rfl⟩ | hfailed)
      · exact Or.inl ⟨rfl, adjudicated_reverted hle hv hnodup⟩
      · exact Or.inr hfailed
  | Unavailable => exact Or.inl ⟨rfl, adjudicated_unavailable hle hv htx⟩

/-- The loop settles the blocks in order, up to the first failure. -/
theorem follows_adjudicateAll (pending : List PendingBlock)
    (hle : ∀ block ∈ pending, block.block_number ≤ c.finalized_block) (htx : db.tx = none)
    (hnodup : (db.event_logs.map EventLog.id).Nodup) :
    Act.Follows (alone c.response) db (adjudicateAll c.chain c.el_rpcs c.finalized_block pending)
      fun db' r => ∃ settled, settled <+: pending ∧ c.Adjudicated settled db db' ∧
        (r = .ok () → settled = pending) := by
  induction pending generalizing db with
  | nil => exact ⟨[], List.nil_prefix, .refl htx, fun _ => rfl⟩
  | cons block rest ih =>
      have hhead := hle block List.mem_cons_self
      refine Act.follows_bind.mpr ((follows_adjudicate hhead htx hnodup).mono ?_)
      rintro db₁ r (⟨rfl, hadj⟩ | ⟨⟨e, rfl⟩, rfl⟩)
      · have hrest := ih (fun b hb => hle b (List.mem_cons_of_mem _ hb)) hadj.tx
          (hadj.nodup hnodup)
        apply hrest.mono
        rintro db' r ⟨settled, hprefix, hadj', hall⟩
        refine ⟨block :: settled, ?_, hadj.append hadj', fun hr => ?_⟩
        · exact List.cons_prefix_cons.mpr ⟨rfl, hprefix⟩
        · rw [hall hr]
      · refine ⟨[], List.nil_prefix, .refl htx, fun hr => ?_⟩
        cases hr

/-- The blocks that are selected are those of the rows that are due. -/
theorem settleIn_selected {row : EventLog} (hrow : row ∈ db.event_logs) :
    let pending := (db.selectPendingBlocks (bridgeModes c.chain) c.finalized_block).map fun r =>
      PendingBlock.mk r.1 r.2
    c.settleIn pending row = c.settle row ∧ c.auditIn pending row = c.auditRow row := by
  intro pending
  unfold settleIn auditIn
  cases hf : c.finding row with
  | none => simp [settle, auditRow, hf]
  | some p =>
      obtain ⟨⟨n, stored⟩, h⟩ := p
      obtain ⟨hmode, hpending, hn, hle, hstored, -⟩ := finding_eq_some.mp hf
      have hmem : (⟨n, stored⟩ : PendingBlock) ∈ pending := by
        refine List.mem_map.mpr ⟨(n, stored), Db.mem_selectPendingBlocks.mpr ?_, rfl⟩
        refine ⟨row, hrow, ?_, ?_, hn, hstored⟩
        · simp [EventLog.isPendingOf, hmode, hpending]
        · simpa [EventLog.isUpTo, hn] using hle
      have hany : (pending.any fun block => row.isOf block) = true := by
        refine List.any_eq_true.mpr ⟨_, hmem, ?_⟩
        simp [EventLog.isOf, hn, hstored]
      rw [hany]
      exact ⟨if_pos rfl, if_pos rfl⟩

/-- What `check_chain` does once it knows what is finalized. -/
theorem follows_settling (htx : db.tx = none)
    (hnodup : (db.event_logs.map EventLog.id).Nodup) :
    Act.Follows (alone c.response) db
      (do reportBacklog c.chain
          let pending ← pendingBlocks c.chain c.finalized_block
          adjudicateAll c.chain c.el_rpcs c.finalized_block pending : Action Unit)
      fun db' r => ∃ settled, c.Adjudicated settled db db' ∧ (r = .ok () →
        ∀ row ∈ db.event_logs, c.settleIn settled row = c.settle row ∧
          c.auditIn settled row = c.auditRow row) := by
  have hnothing : ∀ e : BridgeValidatorError, ∃ settled, c.Adjudicated settled db db ∧
      ((.error (.error e) : Except (Exit BridgeValidatorError) Unit) = .ok () →
        ∀ row ∈ db.event_logs, c.settleIn settled row = c.settle row ∧
          c.auditIn settled row = c.auditRow row) := by
    intro e
    exact ⟨[], .refl htx, fun hr => by cases hr⟩
  refine Act.follows_bind.mpr (Act.follows_bind.mpr (follows_sql.mpr ⟨trivial, fun _ _ => ?_,
    fun _ _ => hnothing _⟩))
  refine Act.follows_bind.mpr (Act.follows_bind.mpr (follows_sql.mpr ⟨trivial, fun rows hrows => ?_,
    fun _ _ => hnothing _⟩))
  refine Act.follows_bind.mpr (follows_sql.mpr ⟨trivial, fun _ _ => ?_, fun _ _ => hnothing _⟩)
  obtain rfl : db.selectPendingBlocks (bridgeModes c.chain) c.finalized_block = rows := by
    rcases hrows with hrows | ⟨-, e, he⟩
    · exact Except.ok.inj hrows
    · cases he
  refine (follows_adjudicateAll _ (fun block hblock => ?_) htx hnodup).mono ?_
  · obtain ⟨⟨n, stored⟩, hmem, rfl⟩ := List.mem_map.mp hblock
    obtain ⟨row, -, -, hupTo, hn, -⟩ := Db.mem_selectPendingBlocks.mp hmem
    rw [EventLog.isUpTo, hn] at hupTo
    exact of_decide_eq_true hupTo
  · rintro db' r ⟨settled, -, hadj, hall⟩
    refine ⟨settled, hadj, fun hr row hrow => ?_⟩
    rw [hall hr]
    exact settleIn_selected hrow

/-! ## The whole call -/

/-- `check_chain` runs alone on `db` and leaves `db'`, after its lookup has returned
`finalized_block`. -/
def Performed (c : Check) (cfg : Config) (db : Db)
    (result : Except (Exit BridgeValidatorError) Unit) (db' : Db) : Prop :=
  ∃ tr lookup rest, Prog.Exec (Db.Alone c.response) db (checkChain cfg c.chain c.el_rpcs) tr
      result db' ∧ tr.map Entry.event = lookup ++ rest ∧
    Prog.Runs (getFinalizedBlockNumber (cfg.finalityRpcsForChain c.chain).1
      (cfg.finalityRpcsForChain c.chain).2) lookup (.ok c.finalized_block)

theorem Performed.settling {cfg : Config} {result : Except (Exit BridgeValidatorError) Unit}
    (h : c.Performed cfg db result db') (htx : db.tx = none)
    (hnodup : (db.event_logs.map EventLog.id).Nodup) :
    ∃ settled, c.Adjudicated settled db db' ∧ (result = .ok () →
      ∀ row ∈ db.event_logs, c.settleIn settled row = c.settle row ∧
        c.auditIn settled row = c.auditRow row) := by
  obtain ⟨tr, lookup, rest, hexec, htr, hlookup⟩ := h
  obtain ⟨tr₁, found, db₁, tr₂, rfl, hfinality, hrest⟩ := Prog.exec_bind.mp hexec
  -- the lookup changes no table, and it is the one that returned the block
  rw [List.map_append] at htr
  obtain ⟨-, rfl⟩ := Prog.Runs.unique hfinality.runs hlookup htr
  have hquiet : Act.Follows (alone c.response) db
      (getFinalizedBlockNumber (cfg.finalityRpcsForChain c.chain).1
        (cfg.finalityRpcsForChain c.chain).2) (Quiet db) :=
    follows_getFinalizedBlockNumber (alone_ignoresLookups.at _ _)
  have hsame : Quiet db db₁ (.ok c.finalized_block) :=
    Prog.Exec.of_follows (fun _ _ _ _ => alone_of_answers) hquiet hfinality
  obtain rfl : db₁ = db := hsame
  exact Prog.Exec.of_follows (fun _ _ _ _ => alone_of_answers) (follows_settling htx hnodup) hrest

/-! ## Exactly the right rows -/

theorem settle_ne_iff : c.settle r ≠ r ↔
    r.bridge_mode ∈ bridgeModes c.chain ∧ r.fcr_status = some .pending ∧
    r.block_hash.isSome = true ∧ ∃ n, r.block_number = some n ∧ n ≤ c.finalized_block ∧
      ∃ hash, c.FirstHash n hash := by
  simp only [← canonicalHash_isSome]
  constructor
  · intro hne
    cases hf : c.finding r with
    | none => exact absurd (settle_of_finding hf) hne
    | some p =>
        obtain ⟨⟨n, stored⟩, h⟩ := p
        obtain ⟨hmode, hpending, hn, hle, hstored, hcanonical⟩ := finding_eq_some.mp hf
        exact ⟨hmode, hpending, by simp [hstored], n, hn, hle, by simp [hcanonical]⟩
  · rintro ⟨hmode, hpending, hstored, n, hn, hle, hcanonical⟩ heq
    obtain ⟨stored, hstored⟩ := Option.isSome_iff_exists.mp hstored
    obtain ⟨h, hcanonical⟩ := Option.isSome_iff_exists.mp hcanonical
    have hf : c.finding r = some (⟨n, stored⟩, h) :=
      finding_eq_some.mpr ⟨hmode, hpending, hn, hle, hstored, hcanonical⟩
    -- a settled row is not due
    rw [← heq, finding_settle] at hf
    cases hf

/-- A changed row is confirmed by the same hash, up to case, and reverted by another. -/
theorem settle_of_changed {n : Int} {stored hash : String} (hne : c.settle r ≠ r)
    (hn : r.block_number = some n) (hstored : r.block_hash = some stored)
    (hfirst : c.FirstHash n hash) :
    (eqIgnoreAsciiCase hash stored = true → c.settle r = r.withStatus .confirmed ∧
      c.auditRow r = none) ∧
    (eqIgnoreAsciiCase hash stored = false → c.settle r = r.withStatus .reverted ∧
      c.auditRow r = some
        { chain := c.chain, block_number := n, stored_block_hash := stored,
          canonical_block_hash := some (toAsciiLowercase hash),
          transaction_hash := r.transaction_hash, log_index := r.log_index,
          event_log_id := r.id, detected_at_finalized := c.finalized_block }) := by
  have hcanonical := canonicalHash_eq_some.mpr ⟨hash, hfirst, rfl⟩
  obtain ⟨hmode, hpending, -, n', hn', hle, -⟩ := settle_ne_iff.mp hne
  obtain rfl := Option.some.inj (hn.symm.trans hn')
  have hf : c.finding r = some (⟨n, stored⟩, toAsciiLowercase hash) :=
    finding_eq_some.mpr ⟨hmode, hpending, hn, hle, hstored, hcanonical⟩
  rw [← eqIgnoreAsciiCase_toAsciiLowercase]
  constructor
  · intro heq
    simp [settle, auditRow, hf, heq]
  · intro hdiffers
    simp [settle, auditRow, hf, hdiffers]

theorem auditRow_of_unchanged (h : c.settle r = r) : c.auditRow r = none := by
  rw [← h, auditRow_settle]

/-- The outcome of a call that has returned `result`. -/
structure Outcome (c : Check) (cfg : Config) (db : Db)
    (result : Except (Exit BridgeValidatorError) Unit) (db' : Db) : Prop where
  rows : result = .ok () → db'.event_logs = db.event_logs.map c.settle
  audited : result = .ok () → ∃ new, db'.fcr_false_positives = db.fcr_false_positives ++ new ∧
    new.Perm (db.event_logs.filterMap c.auditRow)
  /-- which rows change -/
  changed : ∀ r, c.settle r ≠ r ↔
    r.bridge_mode ∈ bridgeModes c.chain ∧ r.fcr_status = some .pending ∧
    r.block_hash.isSome = true ∧ ∃ n, r.block_number = some n ∧ n ≤ c.finalized_block ∧
      ∃ hash, c.FirstHash n hash
  /-- and how, with or without an audit row -/
  verdicts : ∀ r n stored hash, c.settle r ≠ r → r.block_number = some n →
    r.block_hash = some stored → c.FirstHash n hash →
    (eqIgnoreAsciiCase hash stored = true → c.settle r = r.withStatus .confirmed ∧
      c.auditRow r = none) ∧
    (eqIgnoreAsciiCase hash stored = false → c.settle r = r.withStatus .reverted ∧
      c.auditRow r = some
        { chain := c.chain, block_number := n, stored_block_hash := stored,
          canonical_block_hash := some (toAsciiLowercase hash),
          transaction_hash := r.transaction_hash, log_index := r.log_index,
          event_log_id := r.id, detected_at_finalized := c.finalized_block })
  unaudited : ∀ r, c.settle r = r → c.auditRow r = none
  /-- a second call with the same answers finds nothing to do -/
  again : result = .ok () → ∀ result' db'', c.Performed cfg db' result' db'' →
    db''.event_logs = db'.event_logs ∧ db''.fcr_false_positives = db'.fcr_false_positives
  /-- and whatever fails, a block is settled as a whole or not at all -/
  atomic : ∃ settled, c.Adjudicated settled db db'

theorem Adjudicated.settle_all {settled : List PendingBlock} (h : c.Adjudicated settled db db')
    (hall : ∀ row ∈ db.event_logs, c.settleIn settled row = c.settle row ∧
      c.auditIn settled row = c.auditRow row) :
    db'.event_logs = db.event_logs.map c.settle ∧
      ∃ new, db'.fcr_false_positives = db.fcr_false_positives ++ new ∧
        new.Perm (db.event_logs.filterMap c.auditRow) := by
  obtain ⟨new, hnew, hperm⟩ := h.audited
  constructor
  · rw [h.rows]
    exact List.map_congr_left fun row hrow => (hall row hrow).1
  · refine ⟨new, hnew, ?_⟩
    rwa [← List.filterMap_congr fun row hrow => (hall row hrow).2]

/-- Where every row is settled there is nothing left to settle. -/
theorem Adjudicated.unchanged {settled : List PendingBlock} {rows : List EventLog}
    (h : c.Adjudicated settled db db') (hrows : db.event_logs = rows.map c.settle) :
    db'.event_logs = db.event_logs ∧ db'.fcr_false_positives = db.fcr_false_positives := by
  obtain ⟨new, hnew, hperm⟩ := h.audited
  have hrow : ∀ row ∈ db.event_logs, c.settle row = row ∧ c.auditRow row = none := by
    intro row hrow
    rw [hrows] at hrow
    obtain ⟨r, -, rfl⟩ := List.mem_map.mp hrow
    exact ⟨settle_settle, auditRow_settle⟩
  constructor
  · rw [h.rows]
    refine (List.map_congr_left fun row hmem => ?_).trans (List.map_id _)
    rw [settleIn, (hrow row hmem).1]
    exact ite_self row
  · have hnone : db.event_logs.filterMap (c.auditIn settled) = [] := by
      rw [List.filterMap_eq_nil_iff]
      intro row hmem
      rw [auditIn, (hrow row hmem).2]
      exact ite_self none
    rw [hnone] at hperm
    rw [hnew, hperm.eq_nil, List.append_nil]

end Check

/-- **`check_chain` adjudicates exactly the right rows**, on every table, with every
assignment of answers to block numbers, and with any statement failing. -/
theorem check_chain_adjudicates_exactly {c : Check} {cfg : Config} {db db' : Db}
    {result : Except (Exit BridgeValidatorError) Unit}
    (hids : (db.event_logs.map EventLog.id).Nodup) (htx : db.tx = none)
    (h : c.Performed cfg db result db') : c.Outcome cfg db result db' := by
  obtain ⟨settled, hadj, hall⟩ := h.settling htx hids
  constructor
  · intro hok
    exact (hadj.settle_all (hall hok)).1
  · intro hok
    exact (hadj.settle_all (hall hok)).2
  · intro r
    exact Check.settle_ne_iff
  · intro r n stored hash hne hn hstored hfirst
    exact Check.settle_of_changed hne hn hstored hfirst
  · intro r hsame
    exact Check.auditRow_of_unchanged hsame
  · intro hok result' db'' hagain
    obtain ⟨settled', hadj', -⟩ := hagain.settling hadj.tx (hadj.nodup hids)
    exact hadj'.unchanged (hadj.settle_all (hall hok)).1
  · exact ⟨settled, hadj⟩

namespace Deployment

/-- The database on its own, with an oracle for the lookups. -/
def atDatabase (answer : Oracle World.any) (db : Db) (o : Op) : o.Ans × Db :=
  let r := Shared.handle answer { world := (), db, channel := [] } o
  (r.1, r.2.db)

theorem atDatabase_alone (answer : Oracle World.any) (db : Db) (o : Op) :
    db.Alone (fun el_rpc n => (answer () (.ethGetBlockByNumber el_rpc (.number n))).1) o
      (atDatabase answer db o).1 (atDatabase answer db o).2 := by
  have hans := Shared.handle_answers (World.any_truthful answer)
    { world := (), db, channel := [] } o
  cases o with
  | rpc rq =>
      cases rq with
      | ethGetBlockByNumber el_rpc tag =>
          cases tag with
          | number n => exact .lookup
          | _ => exact .other rfl
      | _ => exact .other rfl
  | channelSend data =>
      have hsame : (atDatabase answer db (.channelSend data)).2 = db := by
        simp only [atDatabase, Shared.handle]
        split <;> rfl
      rw [hsame]
      exact .channel
  | db st =>
      apply Db.Alone.statement
      generalize hsh : Shared.handle answer { world := (), db, channel := [] } (.db st) = r at hans
      obtain ⟨x, sh⟩ := r
      have hat : atDatabase answer db (.db st) = (x, sh.db) := by
        simp only [atDatabase, hsh]
      rw [hat]
      cases hans with
      | db h => exact h

/-- A call of `check_chain` played against an oracle. -/
theorem performed_atDatabase {answer : Oracle World.any} {cfg : Config} {c : Check} {db : Db}
    (hresponse : c.response = fun el_rpc n =>
      (answer () (.ethGetBlockByNumber el_rpc (.number n))).1)
    (hfinalized : (Prog.exec (atDatabase answer) (getFinalizedBlockNumber
      (cfg.finalityRpcsForChain c.chain).1 (cfg.finalityRpcsForChain c.chain).2) db).2.1 =
        .ok c.finalized_block) :
    c.Performed cfg db
      (Prog.exec (atDatabase answer) (FcrChecker.checkChain cfg c.chain c.el_rpcs) db).2.1
      (Prog.exec (atDatabase answer) (FcrChecker.checkChain cfg c.chain c.el_rpcs) db).2.2 := by
  have hsem : ∀ (db : Db) (o : Op),
      db.Alone c.response o (atDatabase answer db o).1 (atDatabase answer db o).2 := by
    intro db o
    rw [hresponse]
    exact atDatabase_alone answer db o
  have hplayed : ∃ tr₁ tr₂, Prog.Exec (Db.Alone c.response) db
      (FcrChecker.checkChain cfg c.chain c.el_rpcs) (tr₁ ++ tr₂)
      (Prog.exec (atDatabase answer) (FcrChecker.checkChain cfg c.chain c.el_rpcs) db).2.1
      (Prog.exec (atDatabase answer) (FcrChecker.checkChain cfg c.chain c.el_rpcs) db).2.2 ∧
      Prog.Runs (getFinalizedBlockNumber (cfg.finalityRpcsForChain c.chain).1
        (cfg.finalityRpcsForChain c.chain).2) (tr₁.map Entry.event)
        (Prog.exec (atDatabase answer) (getFinalizedBlockNumber
          (cfg.finalityRpcsForChain c.chain).1 (cfg.finalityRpcsForChain c.chain).2) db).2.1 :=
    Prog.Exec.of_handler_bind hsem _ _ db
  rw [hfinalized] at hplayed
  obtain ⟨tr₁, tr₂, hexec, hruns⟩ := hplayed
  exact ⟨tr₁ ++ tr₂, tr₁.map Entry.event, tr₂.map Entry.event, hexec, List.map_append, hruns⟩

/-- A row from the block with hash `0xaa..`, processed when that was safe. -/
def pendingRow : EventLog where
  id := 1
  topic_key := "0x77"
  bridge_mode := .AMB_ETH
  log_data := .null
  block_number := some 100
  transaction_hash := some "0xcc"
  is_processed := some true
  retry_count := some 0
  stage := some .home
  log_index := some 0
  block_hash := some (FixedBytes.repeatByte 32 0xaa).debug
  fcr_status := some .pending

end Deployment

open Deployment in
/-- The number belongs to another block by now. -/
theorem check_chain_adjudicates_exactly_reverted : ∃ (c : Check) (db db' : Db),
    (∃ r ∈ db'.event_logs, r.fcr_status = some .reverted) ∧
    db'.fcr_false_positives.length = 1 ∧ c.Outcome config db (.ok ()) db' := by
  let answer := lookups (.repeatByte 32 0xbb)
  let db : Db := ⟨[pendingRow], 2, [], none⟩
  let c : Check := { chain := .eth, el_rpcs := config.eth_rpc, finalized_block := 200,
                     response := fun el_rpc n =>
                       (answer () (.ethGetBlockByNumber el_rpc (.number n))).1 }
  let out := Prog.exec (atDatabase answer) (FcrChecker.checkChain config c.chain c.el_rpcs) db
  have hout : ((∃ r ∈ out.2.2.event_logs, r.fcr_status = some .reverted) ∧
      out.2.2.fcr_false_positives.length = 1 ∧ out.2.1 = .ok ()) ∧
      (Prog.exec (atDatabase answer) (getFinalizedBlockNumber
        (config.finalityRpcsForChain c.chain).1 (config.finalityRpcsForChain c.chain).2) db).2.1 =
          .ok c.finalized_block := by
    decide +kernel
  obtain ⟨⟨hrow, haudit, hok⟩, hfinalized⟩ := hout
  refine ⟨c, db, out.2.2, hrow, haudit, ?_⟩
  apply check_chain_adjudicates_exactly
  · decide
  · rfl
  · rw [← hok]
    exact performed_atDatabase rfl hfinalized

end BridgeValidator
