import BridgeValidator.Ownership

/-!
# Who does what to a row

Every way in which a step of the system can change the row of an id, with the
service that takes the step and what it holds at that moment.
-/

namespace BridgeValidator

open Interaction

variable {W : World} {lib : Externals}

/-- `read_from_db` has returned the row of `id`. -/
def Label.claims (id : Int) : Label → Bool
  | .call _ ⟨.db (.claim _), .ok (some row)⟩ => decide (row.id = id)
  | _ => false

/-- The statements that make a verdict visible. -/
def Stmt.setsStatus : Stmt → Bool
  | .markConfirmed .. => true
  | .commit => true
  | _ => false

namespace Sys

/-- What a step makes of the row of `id`. -/
inductive RowStep (s : Sys W) (id : Int) : Label → Option EventLog → Prop
  | same {l} (hfree : l.claims id = false) : RowStep s id l (s.row? id)
  | inserted {i log log_index topic_key log_json} (hid : id = s.shared.db.next_id) :
      RowStep s id (.call (.indexer i) ⟨.db (.insertEventLog
          ((i.indexer s.config).eventLogOf log log_index topic_key log_json)), .ok 1⟩)
        (some (((i.indexer s.config).eventLogOf log log_index topic_key log_json).toRow id))
  | claimed {k r} (hr : s.row? id = some r)
      (hclaimable : r.isClaimable s.config.retryCeiling = true) :
      RowStep s id (.call (.processor k) ⟨.db (.claim s.config.retryCeiling), .ok (some r.toRow)⟩)
        (some r.claimed)
  | staged {data r} (hr : s.row? id = some r) (hhand : s.inHand = some data)
      (hid : data.event_log_id = id) :
      RowStep s id (.call .on_chain_sender ⟨.db (.updateStage .foreign id), .ok ()⟩)
        (some (r.withStage .foreign))
  | released {data r} (hr : s.row? id = some r) (hhand : s.inHand = some data)
      (hid : data.event_log_id = id) :
      RowStep s id (.call .on_chain_sender ⟨.db (.incrementRetryCount id), .ok ()⟩)
        (some r.released)
  | deleted {data} (hhand : s.inHand = some data) (hid : data.event_log_id = id) :
      RowStep s id (.call .on_chain_sender ⟨.db (.deleteEventLog id), .ok ()⟩) none
  | checked {st x status r} (hr : s.row? id = some r) (hst : st.setsStatus = true)
      (hstatus : status = .reverted ∨ r.fcr_status = some .pending) :
      RowStep s id (.call .fcr_checker ⟨.db st, x⟩) (some (r.withStatus status))

variable {s t : Sys W} {l : Label} {v : Service}

/-- Claims are made by a processor, under the configured ceiling. -/
theorem ceiling_of_claim {max : Int} {x : Except String (Option EventLogRow)}
    (hs : s.Coherent lib) (h : s.Step lib (.call v ⟨.db (.claim max), x⟩) t) :
    (∃ k, v = .processor k) ∧ max = s.config.retryCeiling := by
  cases h with
  | @call _ r _ k _ sh hr hrest hans =>
      have hallow := hs.running_allows hr hrest
      have hservice := (hs v r hr).1
      unfold Running.Allows at hallow
      cases hjob : r.job with
      | process j =>
          rw [hjob] at hallow hservice
          exact ⟨⟨j, hservice.symm⟩, hallow.2⟩
      | _ =>
          rw [hjob] at hallow
          exact hallow.elim

/-- Rows are inserted by an indexer, made from logs. -/
theorem indexer_of_insert {n : NewEventLog} {x : Except String Nat} (hs : s.Coherent lib)
    (h : s.Step lib (.call v ⟨.db (.insertEventLog n), x⟩) t) :
    ∃ i log log_index topic_key log_json, v = .indexer i ∧
      n = (i.indexer s.config).eventLogOf log log_index topic_key log_json := by
  cases h with
  | call hr hrest hans => exact hs.insert_allows hr hrest

/-- Stages are set to `foreign` only, by the sender, for the row it works on. -/
theorem sender_of_updateStage {stage : Stage} {id : Int} {x : Except String Unit}
    (hs : s.Coherent lib) (h : s.Step lib (.call v ⟨.db (.updateStage stage id), x⟩) t) :
    stage = .foreign ∧ ∃ r data, s.running .on_chain_sender = some r ∧ r.job = .send data ∧
      data.event_log_id = id := by
  cases h with
  | @call _ r _ k _ sh hr hrest hans =>
      obtain ⟨rfl, data, hjob, -, hid, hstage⟩ := hs.sender_allows hr hrest rfl
      exact ⟨hstage, r, data, hr, hjob, hid.symm⟩

/-- A status is set by the checker. -/
theorem checker_of_marking {st : Stmt} {x : Except String st.Ret} (hst : st.setsStatus = true)
    (hs : s.Coherent lib) (h : s.Step lib (.call v ⟨.db st, x⟩) t) : v = .fcr_checker := by
  cases h with
  | @call _ r _ k _ sh hr hrest hans =>
      have hallow := hs.running_allows hr hrest
      have hservice := (hs v r hr).1
      unfold Running.Allows at hallow
      cases hjob : r.job with
      | check =>
          rw [hjob] at hservice
          exact hservice.symm
      | _ =>
          rw [hjob] at hallow
          cases st <;> first | exact hallow.elim | cases hst

/-- Who claims a row has found it claimable, and leaves it claimed. -/
theorem Step.claims (hk : s.shared.db.Keyed) (h : s.Step lib l t) {id : Int}
    (hl : l.claims id = true) : ∃ v max r, l = .call v ⟨.db (.claim max), .ok (some r.toRow)⟩ ∧
      s.row? id = some r ∧ r.isClaimable max = true ∧ t.row? id = some r.claimed := by
  cases h with
  | @call v _ _ _ _ _ hr hrest hans =>
      cases hans with
      | @db st x db' hans =>
          cases st with
          | claim max =>
              match x, hl with
              | .ok (some row), hl =>
                  have hid : id = row.id := (of_decide_eq_true hl).symm
                  obtain ⟨r, hr', rfl, hclaimable, hafter⟩ := (hans.rowEffect hk id).1 hid
                  exact ⟨v, max, r, rfl, hr', hclaimable, hafter⟩
          | _ => cases hl
      | _ => cases hl
  | _ => cases hl

/-- **What a step makes of a row, and whose step it is.** -/
theorem Step.rowStep (hs : s.Coherent lib) (hk : s.shared.db.Keyed) (h : s.Step lib l t)
    (id : Int) : s.RowStep id l (t.row? id) := by
  by_cases hl : l.claims id = true
  · obtain ⟨v, max, r, rfl, hr, hclaimable, hafter⟩ := h.claims hk hl
    obtain ⟨⟨k, rfl⟩, rfl⟩ := ceiling_of_claim hs h
    rw [hafter]
    exact .claimed hr hclaimable
  · have hfree : l.claims id = false := Bool.eq_false_iff.mpr hl
    rcases h.rowMove hk id with hsame | ⟨v, st, x, rfl, hans, hmove⟩
    · rw [hsame]
      exact .same hfree
    · generalize hafter : t.row? id = after at hmove
      cases hmove with
      | same => exact .same hfree
      | claimed hr _ =>
          have hid := Db.row?_id hr
          exact absurd hid (of_decide_eq_false hfree)
      | @inserted n k hid =>
          obtain ⟨i, log, log_index, topic_key, log_json, rfl, rfl⟩ := indexer_of_insert hs h
          have hone : k = 1 := by
            rcases hans with ⟨-, skip, hexec⟩ | ⟨-, -, e, hx⟩
            · rcases hk.row?_insert hexec with ⟨-, -, hrow⟩ | ⟨hk1, -⟩
              · -- a conflict adds no row
                have hnone := hk.row?_of_next_le hid.ge
                rw [← hrow id] at hnone
                cases hnone.symm.trans hafter
              · exact hk1
            · cases hx
          subst hone
          exact .inserted hid
      | staged hr =>
          obtain ⟨rfl, data, hhand, hid⟩ := holder_of_statement hs rfl h
          obtain ⟨rfl, -⟩ := sender_of_updateStage hs h
          exact .staged hr hhand hid
      | released hr =>
          obtain ⟨rfl, data, hhand, hid⟩ := holder_of_statement hs rfl h
          exact .released hr hhand hid
      | deleted =>
          obtain ⟨rfl, data, hhand, hid⟩ := holder_of_statement hs rfl h
          exact .deleted hhand hid
      | confirmed hr hpending =>
          obtain rfl := checker_of_marking rfl hs h
          exact .checked hr rfl (Or.inr (EventLog.fcr_status_of_isPendingAt hpending))
      | reverted hr _ =>
          obtain rfl := checker_of_marking rfl hs h
          exact .checked hr rfl (Or.inl rfl)

/-- A known row keeps its mode, and its stage unless that is what the step is
about. -/
theorem Step.row_frame (hs : s.Coherent lib) (hk : s.shared.db.Keyed) (h : s.Step lib l t)
    {id : Int} (hid : id < s.shared.db.next_id) {r' : EventLog} (hr' : t.row? id = some r') :
    ∃ r, s.row? id = some r ∧ r'.bridge_mode = r.bridge_mode ∧
      (r'.stage = r.stage ∨ r'.stage = some .foreign ∧
        l = .call .on_chain_sender ⟨.db (.updateStage .foreign id), .ok ()⟩) := by
  have hrow := h.rowStep hs hk id
  generalize t.row? id = after at hrow hr'
  cases hrow with
  | same _ => exact ⟨r', hr', rfl, Or.inl rfl⟩
  | inserted hnew => exact absurd hnew hid.ne
  | staged hr =>
      obtain rfl := Option.some.inj hr'
      exact ⟨_, hr, rfl, Or.inr ⟨rfl, rfl⟩⟩
  | claimed hr | released hr | checked hr =>
      obtain rfl := Option.some.inj hr'
      exact ⟨_, hr, rfl, Or.inl rfl⟩
  | deleted => cases hr'

/-- A row goes by a DELETE of the sender, with the row in hand. -/
theorem Step.deleted (hs : s.Coherent lib) (hk : s.shared.db.Keyed) (h : s.Step lib l t)
    {id : Int} {r : EventLog} (hr : s.row? id = some r) (hgone : t.row? id = none) :
    l = .call .on_chain_sender ⟨.db (.deleteEventLog id), .ok ()⟩ ∧
      ∃ data, s.inHand = some data ∧ data.event_log_id = id := by
  have hrow := h.rowStep hs hk id
  generalize t.row? id = after at hrow hgone
  cases hrow with
  | same _ =>
      rw [hr] at hgone
      cases hgone
  | deleted hhand hid => exact ⟨rfl, _, hhand, hid⟩
  | _ => cases hgone

end Sys

end BridgeValidator
