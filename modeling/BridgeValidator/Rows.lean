import BridgeValidator.EventLogs

/-!
# Rows by id

`event_logs` read as a partial map from ids to rows, and what one answered
statement can do to the row of an id. Ids are drawn from a sequence, so the
map loses nothing (`Keyed`) and an id that is gone stays gone.
-/

namespace BridgeValidator

open Interaction

namespace Db

/-- The row with this id. -/
def row? (db : Db) (id : Int) : Option EventLog := lookup EventLog.id id db.event_logs

/-- `id SERIAL PRIMARY KEY`. -/
structure Keyed (db : Db) : Prop where
  nodup : (db.event_logs.map EventLog.id).Nodup
  lt_next : ∀ r ∈ db.event_logs, r.id < db.next_id

variable {db db' : Db} {id : Int} {r : EventLog}

theorem keyed_empty : Db.empty.Keyed := ⟨List.nodup_nil, by simp [Db.empty]⟩

theorem row?_mem (h : db.row? id = some r) : r ∈ db.event_logs := lookup_mem h

theorem row?_id (h : db.row? id = some r) : r.id = id := lookup_key h

theorem Keyed.row?_of_mem (hk : db.Keyed) (h : r ∈ db.event_logs) : db.row? r.id = some r :=
  lookup_of_mem hk.nodup h

theorem Keyed.row?_of_next_le (hk : db.Keyed) (h : db.next_id ≤ id) : db.row? id = none := by
  refine lookup_eq_none.mpr fun r hr => ?_
  have := hk.lt_next r hr
  omega

theorem Keyed.lt_next_of_row? (hk : db.Keyed) (h : db.row? id = some r) : id < db.next_id := by
  rw [← row?_id h]
  exact hk.lt_next r (row?_mem h)

/-! ## Each statement on the row of an id -/

theorem row?_update {p : EventLog → Bool} {f : EventLog → EventLog}
    (hf : ∀ r, (f r).id = r.id) :
    (db.update p f).row? id = (db.row? id).map fun r => if p r then f r else r :=
  lookup_updateWhere hf

theorem row?_update_id {id₀ : Int} {f : EventLog → EventLog} (hf : ∀ r, (f r).id = r.id) :
    (db.update (fun r => r.id == id₀) f).row? id =
      if id = id₀ then (db.row? id).map f else db.row? id :=
  lookup_updateWhere_key hf fun _ => rfl

theorem row?_deleteEventLog {id₀ : Int} :
    (db.deleteEventLog id₀).row? id = if id = id₀ then none else db.row? id :=
  lookup_filter_ne fun _ => rfl

theorem Keyed.update (hk : db.Keyed) {p : EventLog → Bool} {f : EventLog → EventLog}
    (hf : ∀ r, (f r).id = r.id) : (db.update p f).Keyed where
  nodup := by
    rw [Db.update, map_updateWhere hf]
    exact hk.nodup
  lt_next r hr := by
    obtain ⟨r₀, h₀, rfl⟩ := exists_of_mem_updateWhere hr
    split
    · rw [hf]
      exact hk.lt_next r₀ h₀
    · exact hk.lt_next r₀ h₀

theorem claimCandidate_spec {skip : Int → Bool} {max : Int}
    (h : db.claimCandidate skip max = some r) :
    r ∈ db.event_logs ∧ r.isClaimable max = true := by
  have hmem := List.mem_of_head? h
  rw [List.mem_insertionSort, List.mem_filter] at hmem
  simp only [Bool.and_eq_true] at hmem
  exact ⟨hmem.1, hmem.2.1.1⟩

/-- The selected blocks are those of the pending rows in range. -/
theorem mem_selectPendingBlocks {modes : List BridgeMode} {finalized n : Int} {h : String} :
    (n, h) ∈ db.selectPendingBlocks modes finalized ↔ ∃ r ∈ db.event_logs,
      r.isPendingOf modes = true ∧ r.isUpTo finalized = true ∧ r.block_number = some n ∧
      r.block_hash = some h := by
  simp only [selectPendingBlocks, List.mem_insertionSort, List.mem_dedup, List.mem_filterMap,
    List.mem_filter, Bool.and_eq_true, Option.bind_eq_some_iff, Option.map_eq_some_iff,
    Prod.mk.injEq]
  constructor
  · rintro ⟨r, ⟨hr, hpending, hupTo⟩, _, hn, _, hh, rfl, rfl⟩
    exact ⟨r, hr, hpending, hupTo, hn, hh⟩
  · rintro ⟨r, hr, hpending, hupTo, hn, hh⟩
    exact ⟨r, ⟨hr, hpending, hupTo⟩, n, hn, h, hh, rfl, rfl⟩

/-- The row map after an INSERT that was accepted. -/
theorem Keyed.row?_insert (hk : db.Keyed) {n : NewEventLog} {k : Nat}
    (h : db.insertEventLog n = (.ok k, db')) :
    (k = 0 ∧ db.hasKey n.transaction_hash n.log_index = true ∧ ∀ id, db'.row? id = db.row? id) ∨
    (k = 1 ∧ db.hasKey n.transaction_hash n.log_index = false ∧
      db'.event_logs = db.event_logs ++ [n.toRow db.next_id] ∧
      ∀ id, db'.row? id = if id = db.next_id then some (n.toRow id) else db.row? id) := by
  unfold Db.insertEventLog at h
  split at h
  · split at h
    · rename_i hkey
      simp only [Prod.mk.injEq, Except.ok.injEq] at h
      obtain ⟨rfl, rfl⟩ := h
      exact Or.inl ⟨rfl, hkey, fun _ => rfl⟩
    · rename_i hkey
      simp only [Prod.mk.injEq, Except.ok.injEq] at h
      obtain ⟨rfl, rfl⟩ := h
      refine Or.inr ⟨rfl, Bool.eq_false_iff.mpr hkey, rfl, fun id => ?_⟩
      simp only [row?, lookup_append_single, NewEventLog.toRow]
      by_cases hid : id = db.next_id
      · subst hid
        have hnone := hk.row?_of_next_le (le_refl db.next_id)
        simp only [row?] at hnone
        simp [hnone]
      · simp [hid, Ne.symm hid]
  · simp at h

end Db

/-! ## The statements at large -/

/-- What an answered statement does to the row of `id`. -/
def Stmt.RowEffect (db : Db) (id : Int) (after : Option EventLog) :
    (st : Stmt) → Except String st.Ret → Prop
  | .claim max, .ok (some row) =>
      (id = row.id → ∃ r, db.row? id = some r ∧ row = r.toRow ∧ r.isClaimable max = true ∧
        after = some r.claimed) ∧
      (id ≠ row.id → after = db.row? id)
  | .insertEventLog n, .ok _ =>
      after = db.row? id ∨ (id = db.next_id ∧ after = some (n.toRow id))
  | .updateStage stage id', .ok _ =>
      after = if id = id' then (db.row? id).map (EventLog.withStage stage) else db.row? id
  | .incrementRetryCount id', .ok _ =>
      after = if id = id' then (db.row? id).map EventLog.released else db.row? id
  | .deleteEventLog id', .ok _ => after = if id = id' then none else db.row? id
  | .markConfirmed modes n h, .ok _ =>
      after = (db.row? id).map fun r =>
        if r.isPendingAt modes n h then r.withStatus .confirmed else r
  | .commit, .ok _ =>
      after = (db.row? id).map fun r =>
        if decide (r.id ∈ db.tx.elim [] Tx.reverted) then r.withStatus .reverted else r
  | _, _ => after = db.row? id

namespace Db

variable {db db' : Db} {st : Stmt} {x : Except String st.Ret}

theorem rowEffect_of_error {e : String} (id : Int) :
    st.RowEffect db id (db.row? id) (.error e) := by
  cases st <;> simp [Stmt.RowEffect]

theorem exec_rowEffect (hk : db.Keyed) {skip : Int → Bool} (h : db.exec skip st = (x, db'))
    (id : Int) : st.RowEffect db id (db'.row? id) x := by
  cases st with
  | claim max =>
      simp only [exec, claim] at h
      cases hc : db.claimCandidate skip max with
      | none =>
          simp only [hc, Prod.map_apply, Prod.mk.injEq] at h
          obtain ⟨rfl, rfl⟩ := h
          rfl
      | some r =>
          simp only [hc, Prod.map_apply, Prod.mk.injEq] at h
          obtain ⟨rfl, rfl⟩ := h
          obtain ⟨hmem, hcl⟩ := claimCandidate_spec hc
          have hrow : ∀ id, ((db.update (fun r' => r'.id == r.id) EventLog.claimed).row? id) =
              if id = r.id then (db.row? id).map EventLog.claimed else db.row? id :=
            fun id => row?_update_id fun _ => rfl
          refine ⟨fun hid => ?_, fun hid => (hrow id).trans (if_neg hid)⟩
          obtain rfl : id = r.id := hid
          refine ⟨r, hk.row?_of_mem hmem, rfl, hcl, (hrow r.id).trans ?_⟩
          simp [hk.row?_of_mem hmem]
  | insertEventLog n =>
      simp only [exec] at h
      cases x with
      | error e =>
          simp only [insertEventLog] at h
          split at h
          · split at h <;> simp at h
          · obtain ⟨-, rfl⟩ := Prod.mk.inj h
            exact rowEffect_of_error id
      | ok k =>
          obtain ⟨-, -, hrow⟩ | ⟨-, -, -, hrow⟩ := hk.row?_insert h
          · exact Or.inl (hrow id)
          · rw [Stmt.RowEffect, hrow id]
            split
            · exact Or.inr ⟨‹_›, rfl⟩
            · exact Or.inl rfl
  | updateStage stage id' =>
      obtain ⟨rfl, rfl⟩ := Prod.mk.inj h
      exact row?_update_id fun _ => rfl
  | incrementRetryCount id' =>
      simp only [exec, incrementRetryCount] at h
      split at h
      · obtain ⟨rfl, rfl⟩ := Prod.mk.inj h
        exact rowEffect_of_error id
      · obtain ⟨rfl, rfl⟩ := Prod.mk.inj h
        exact row?_update_id fun _ => rfl
  | deleteEventLog id' =>
      obtain ⟨rfl, rfl⟩ := Prod.mk.inj h
      exact row?_deleteEventLog
  | markConfirmed modes n b =>
      obtain ⟨rfl, rfl⟩ := Prod.mk.inj h
      exact row?_update fun _ => rfl
  | commit =>
      simp only [exec, commit] at h
      split at h
      · obtain ⟨rfl, rfl⟩ := Prod.mk.inj h
        rfl
      · rename_i tx htx
        obtain ⟨rfl, rfl⟩ := Prod.mk.inj h
        simp only [Stmt.RowEffect, htx, Option.elim]
        exact row?_update fun _ => rfl
  | selectAffected modes n b =>
      simp only [exec, selectAffected] at h
      split at h <;> (obtain ⟨rfl, rfl⟩ := Prod.mk.inj h; rfl)
  | insertFalsePositive row =>
      simp only [exec, insertFalsePositive] at h
      split at h <;> (obtain ⟨rfl, rfl⟩ := Prod.mk.inj h; rfl)
  | markReverted modes n b =>
      simp only [exec, markReverted] at h
      split at h <;> (obtain ⟨rfl, rfl⟩ := Prod.mk.inj h; rfl)
  | countPending _ | selectPendingBlocks _ _ | countUnverifiable _ _ | begin | rollback =>
      obtain ⟨rfl, rfl⟩ := Prod.mk.inj h
      rfl

theorem Keyed.insert (hk : db.Keyed) {n : NewEventLog} {r : Except String Nat}
    (h : db.insertEventLog n = (r, db')) : db'.Keyed ∧ db.next_id ≤ db'.next_id := by
  simp only [insertEventLog] at h
  split at h
  · split at h
    · obtain ⟨rfl, rfl⟩ := Prod.mk.inj h
      exact ⟨⟨hk.nodup, fun r hr => Int.lt_add_one_of_le (hk.lt_next r hr).le⟩,
        Int.le_add_one (le_refl _)⟩
    · obtain ⟨rfl, rfl⟩ := Prod.mk.inj h
      refine ⟨⟨?_, fun r hr => Int.lt_add_one_of_le ?_⟩, Int.le_add_one (le_refl _)⟩
      · rw [List.map_append, List.nodup_append]
        refine ⟨hk.nodup, List.nodup_singleton _, ?_⟩
        intro a ha b hb
        obtain ⟨r, hr, rfl⟩ := List.mem_map.mp ha
        obtain rfl : b = db.next_id := by simpa [NewEventLog.toRow] using hb
        exact (hk.lt_next r hr).ne
      · rcases List.mem_append.mp hr with hr | hr
        · exact (hk.lt_next r hr).le
        · obtain rfl := List.mem_singleton.mp hr
          exact le_refl _
  · obtain ⟨rfl, rfl⟩ := Prod.mk.inj h
    exact ⟨hk, le_refl _⟩

theorem exec_keyed (hk : db.Keyed) {skip : Int → Bool} (h : db.exec skip st = (x, db')) :
    db'.Keyed ∧ db.next_id ≤ db'.next_id := by
  cases st with
  | claim max =>
      simp only [exec, claim] at h
      split at h <;> obtain ⟨-, rfl⟩ := Prod.mk.inj h
      · exact ⟨hk, le_refl _⟩
      · exact ⟨hk.update fun _ => rfl, le_refl _⟩
  | insertEventLog n => exact hk.insert h
  | updateStage stage id' =>
      obtain ⟨-, rfl⟩ := Prod.mk.inj h
      exact ⟨hk.update fun _ => rfl, le_refl _⟩
  | incrementRetryCount id' =>
      simp only [exec, incrementRetryCount] at h
      split at h <;> obtain ⟨-, rfl⟩ := Prod.mk.inj h
      · exact ⟨hk, le_refl _⟩
      · exact ⟨hk.update fun _ => rfl, le_refl _⟩
  | deleteEventLog id' =>
      obtain ⟨-, rfl⟩ := Prod.mk.inj h
      exact ⟨⟨(List.Sublist.map _ List.filter_sublist).nodup hk.nodup,
        fun r hr => hk.lt_next r (List.mem_of_mem_filter hr)⟩, le_refl _⟩
  | markConfirmed modes n b =>
      obtain ⟨-, rfl⟩ := Prod.mk.inj h
      exact ⟨hk.update fun _ => rfl, le_refl _⟩
  | commit =>
      simp only [exec, commit] at h
      split at h
      · obtain ⟨-, rfl⟩ := Prod.mk.inj h
        exact ⟨hk, le_refl _⟩
      · rename_i tx _
        obtain ⟨-, rfl⟩ := Prod.mk.inj h
        have hu : (db.update (fun r => decide (r.id ∈ tx.reverted))
            (EventLog.withStatus .reverted)).Keyed := hk.update fun _ => rfl
        exact ⟨⟨hu.nodup, hu.lt_next⟩, le_refl _⟩
  | selectAffected modes n b =>
      simp only [exec, selectAffected] at h
      split at h <;> (obtain ⟨-, rfl⟩ := Prod.mk.inj h; exact ⟨⟨hk.nodup, hk.lt_next⟩, le_refl _⟩)
  | insertFalsePositive row =>
      simp only [exec, insertFalsePositive] at h
      split at h <;> (obtain ⟨-, rfl⟩ := Prod.mk.inj h; exact ⟨⟨hk.nodup, hk.lt_next⟩, le_refl _⟩)
  | markReverted modes n b =>
      simp only [exec, markReverted] at h
      split at h <;> (obtain ⟨-, rfl⟩ := Prod.mk.inj h; exact ⟨⟨hk.nodup, hk.lt_next⟩, le_refl _⟩)
  | countPending _ | selectPendingBlocks _ _ | countUnverifiable _ _ | begin | rollback =>
      obtain ⟨-, rfl⟩ := Prod.mk.inj h
      exact ⟨⟨hk.nodup, hk.lt_next⟩, le_refl _⟩

/-- Ids stay distinct and are never reused. -/
theorem Answers.keyed (hk : db.Keyed) (h : db.Answers st x db') :
    db'.Keyed ∧ db.next_id ≤ db'.next_id := by
  obtain ⟨-, skip, h⟩ | ⟨-, rfl, -, -⟩ := h
  · exact exec_keyed hk h
  · exact ⟨hk, le_refl _⟩

/-- **What an answered statement does to a row, whether it succeeds or fails.** -/
theorem Answers.rowEffect (hk : db.Keyed) (h : db.Answers st x db') (id : Int) :
    st.RowEffect db id (db'.row? id) x := by
  obtain ⟨-, skip, h⟩ | ⟨-, rfl, e, rfl⟩ := h
  · exact exec_rowEffect hk h id
  · exact rowEffect_of_error id

end Db

/-! ## The life of a row -/

/-- Everything an answered statement can make of the row of `id`, and when. -/
inductive Stmt.RowMove (db : Db) (id : Int) :
    (st : Stmt) → Except String st.Ret → Option EventLog → Prop
  | same {st : Stmt} {x : Except String st.Ret} : RowMove db id st x (db.row? id)
  | claimed {max : Int} {r : EventLog} (hr : db.row? id = some r)
      (hclaimable : r.isClaimable max = true) :
      RowMove db id (.claim max) (.ok (some r.toRow)) (some r.claimed)
  | inserted {n : NewEventLog} {k : Nat} (hid : id = db.next_id) :
      RowMove db id (.insertEventLog n) (.ok k) (some (n.toRow id))
  | staged {stage : Stage} {r : EventLog} (hr : db.row? id = some r) :
      RowMove db id (.updateStage stage id) (.ok ()) (some (r.withStage stage))
  | released {r : EventLog} (hr : db.row? id = some r) :
      RowMove db id (.incrementRetryCount id) (.ok ()) (some r.released)
  | deleted : RowMove db id (.deleteEventLog id) (.ok ()) none
  | confirmed {modes : List BridgeMode} {n : Int} {h : String} {k : Nat} {r : EventLog}
      (hr : db.row? id = some r) (hpending : r.isPendingAt modes n h = true) :
      RowMove db id (.markConfirmed modes n h) (.ok k) (some (r.withStatus .confirmed))
  | reverted {r : EventLog} (hr : db.row? id = some r)
      (hlisted : r.id ∈ db.tx.elim [] Tx.reverted) :
      RowMove db id .commit (.ok ()) (some (r.withStatus .reverted))

theorem Stmt.RowEffect.move {db : Db} {id : Int} {after : Option EventLog} {st : Stmt}
    {x : Except String st.Ret} (h : st.RowEffect db id after x) : st.RowMove db id x after := by
  have hsame : after = db.row? id → st.RowMove db id x after := by
    rintro rfl
    exact .same
  cases x with
  | error e => exact hsame (by cases st <;> exact h)
  | ok a =>
      cases st with
      | claim max =>
          match a, h with
          | none, h => exact hsame h
          | some row, h =>
              by_cases heq : id = row.id
              · obtain ⟨r, hr, rfl, hclaimable, rfl⟩ := h.1 heq
                exact .claimed hr hclaimable
              · exact hsame (h.2 heq)
      | insertEventLog n =>
          rcases h with h | ⟨hid, rfl⟩
          · exact hsame h
          · exact .inserted hid
      | updateStage stage id' =>
          by_cases heq : id = id'
          · subst heq
            rw [Stmt.RowEffect, if_pos rfl] at h
            cases hr : db.row? id with
            | none => exact hsame (by rw [h, hr, Option.map_none])
            | some r =>
                rw [hr, Option.map_some] at h
                rw [h]
                exact .staged hr
          · exact hsame (h.trans (if_neg heq))
      | incrementRetryCount id' =>
          by_cases heq : id = id'
          · subst heq
            rw [Stmt.RowEffect, if_pos rfl] at h
            cases hr : db.row? id with
            | none => exact hsame (by rw [h, hr, Option.map_none])
            | some r =>
                rw [hr, Option.map_some] at h
                rw [h]
                exact .released hr
          · exact hsame (h.trans (if_neg heq))
      | deleteEventLog id' =>
          by_cases heq : id = id'
          · subst heq
            rw [Stmt.RowEffect, if_pos rfl] at h
            rw [h]
            exact .deleted
          · exact hsame (h.trans (if_neg heq))
      | markConfirmed modes n b =>
          rw [Stmt.RowEffect] at h
          cases hr : db.row? id with
          | none => exact hsame (by rw [h, hr, Option.map_none])
          | some r =>
              rw [hr, Option.map_some] at h
              split at h
              · rw [h]
                exact .confirmed hr ‹_›
              · exact hsame (h.trans hr.symm)
      | commit =>
          rw [Stmt.RowEffect] at h
          cases hr : db.row? id with
          | none => exact hsame (by rw [h, hr, Option.map_none])
          | some r =>
              rw [hr, Option.map_some] at h
              split at h
              · rename_i hlisted
                rw [h]
                exact .reverted hr (of_decide_eq_true hlisted)
              · exact hsame (h.trans hr.symm)
      | _ => exact hsame h

section

variable {db : Db} {id : Int} {after : Option EventLog} {st : Stmt} {x : Except String st.Ret}
  {r r' : EventLog}

theorem EventLog.fcr_status_of_isPendingAt {modes : List BridgeMode} {n : Int}
    {h : String} (hp : r.isPendingAt modes n h = true) : r.fcr_status = some .pending := by
  simp only [isPendingAt, isPendingOf, Bool.and_eq_true, beq_iff_eq] at hp
  exact hp.1.1.2

/-- The two rows are the same log: the columns no statement changes agree. -/
structure EventLog.SameLog (r r' : EventLog) : Prop where
  id : r'.id = r.id
  bridge_mode : r'.bridge_mode = r.bridge_mode
  block_number : r'.block_number = r.block_number
  block_hash : r'.block_hash = r.block_hash
  transaction_hash : r'.transaction_hash = r.transaction_hash
  log_index : r'.log_index = r.log_index

theorem EventLog.SameLog.refl : r.SameLog r := ⟨rfl, rfl, rfl, rfl, rfl, rfl⟩

theorem EventLog.SameLog.trans {r'' : EventLog} (h : r.SameLog r') (h' : r'.SameLog r'') :
    r.SameLog r'' :=
  ⟨h'.id.trans h.id, h'.bridge_mode.trans h.bridge_mode, h'.block_number.trans h.block_number,
    h'.block_hash.trans h.block_hash, h'.transaction_hash.trans h.transaction_hash,
    h'.log_index.trans h.log_index⟩

/-- A row is a log that was there, or one that has just been inserted. -/
theorem Stmt.RowEffect.origin (h : st.RowEffect db id after x) (hr' : after = some r') :
    (∃ r, db.row? id = some r ∧ r.SameLog r') ∨
      ∃ n, id = db.next_id ∧ st = .insertEventLog n ∧ r' = n.toRow id := by
  cases h.move with
  | same => exact Or.inl ⟨r', hr', .refl⟩
  | inserted hnew =>
      obtain rfl := Option.some.inj hr'
      exact Or.inr ⟨_, hnew, rfl, rfl⟩
  | deleted => cases hr'
  | claimed hr | staged hr | released hr | confirmed hr | reverted hr =>
      obtain rfl := Option.some.inj hr'
      exact Or.inl ⟨_, hr, rfl, rfl, rfl, rfl, rfl, rfl⟩

/-- A row of a known id stays the log it is. -/
theorem Stmt.RowEffect.sameLog (h : st.RowEffect db id after x) (hid : id < db.next_id)
    (hr' : after = some r') : ∃ r, db.row? id = some r ∧ r.SameLog r' := by
  rcases h.origin hr' with hold | ⟨n, hnew, -, -⟩
  · exact hold
  · exact absurd hnew hid.ne

end

end BridgeValidator
