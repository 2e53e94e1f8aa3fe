import BridgeValidator.Chunks
import BridgeValidator.Ownership
import BridgeValidator.Rounds

/-!
# Logs behind the cursor

The indexer only logs a failed INSERT, so the cursor can pass a log that was
never stored. As long as every INSERT is executed, nothing an indexer has
fetched stays behind: what is fetched is stored before the next chunk is
asked for.
-/

namespace BridgeValidator

open Interaction

variable {W : World} {lib : Externals} {cfg : Config}

/-- `serde_json::to_value` of a log does not fail. -/
def Externals.Serializes (lib : Externals) : Prop := ∀ log, ∃ v, lib.toValue log = .ok v

/-- The log has the `log_index` and the `topics[0]` a row needs. -/
def RpcLog.storable (log : RpcLog) : Bool := log.log_index.isSome && log.topics.head?.isSome

/-- A row with the log's `(transaction_hash, log_index)` is there. -/
def Db.Has (db : Db) (log : RpcLog) : Prop :=
  ∃ r ∈ db.event_logs, r.transaction_hash = log.transaction_hash.map FixedBytes.debug ∧
    r.log_index = log.log_index.map fun n => asI64 n

/-- An executed INSERT leaves a row with its key, its own or an older one. -/
theorem Db.Answers.has {db db' : Db} {n : NewEventLog} {k : Nat}
    (h : db.Answers (.insertEventLog n) (.ok k) db') :
    ∃ r ∈ db'.event_logs, r.transaction_hash = n.transaction_hash ∧
      r.log_index = some n.log_index := by
  rcases h with ⟨-, skip, hexec⟩ | ⟨-, -, e, hx⟩
  · simp only [Db.exec, Db.insertEventLog] at hexec
    split at hexec
    · split at hexec
      · rename_i hkey
        obtain ⟨r, hr, hr'⟩ := List.any_eq_true.mp hkey
        simp only [Bool.and_eq_true, beq_iff_eq] at hr'
        obtain ⟨-, rfl⟩ := Prod.mk.inj hexec
        exact ⟨r, hr, hr'.1.2, hr'.2⟩
      · obtain ⟨-, rfl⟩ := Prod.mk.inj hexec
        refine ⟨n.toRow db.next_id, ?_, rfl, rfl⟩
        exact List.mem_append_right _ (List.mem_singleton_self _)
    · cases (Prod.mk.inj hexec).1
  · cases hx

namespace EventIndexer

/-! ## What is still to be stored -/

/-- The fetched logs whose INSERT is still to come. -/
def todoAfter (todo : List RpcLog) : (o : Op) → o.Ans → List RpcLog
  | .rpc (.getLogs ..), .ok logs => logs.filter RpcLog.storable
  | .db (.insertEventLog _), .ok _ => todo.tail
  | _, _ => todo

/-- Logs are fetched from above the cursor and stored one by one, and the next
chunk is asked for when all of them are. -/
def storing (ix : EventIndexer) (last_processed_block : Nat) : Protocol Calls (List RpcLog) where
  allows todo
    | .rpc (.getLogs _ filter) => todo = [] ∧ last_processed_block < filter.from_block
    | .rpc _ => True
    | .db (.insertEventLog row) => ∃ log rest log_index topic_key log_json, todo = log :: rest ∧
        log.log_index = some log_index ∧ row = ix.eventLogOf log log_index topic_key log_json
    | _ => False
  admits _
    | .db (.insertEventLog _), .error _ => False
    | _, _ => True
  next := todoAfter

variable {ix : EventIndexer} {last_processed_block upper_bound_block : Nat}

theorem storing_ignoresLookups : IgnoresLookups (ix.storing last_processed_block) where
  beacon _ _ := ⟨trivial, fun _ => rfl⟩
  el _ _ _ := ⟨trivial, fun _ => rfl⟩

theorem storing_storeLogs (hjson : lib.Serializes) (logs : List RpcLog) :
    Act.Follows (ix.storing last_processed_block) (logs.filter RpcLog.storable)
      (ix.storeLogs lib logs) fun todo _ => todo = [] := by
  induction logs with
  | nil => rfl
  | cons log rest ih =>
      apply Act.follows_bind.mpr
      unfold storeLog
      cases hindex : log.log_index with
      | none =>
          have hskip : log.storable = false := by simp [RpcLog.storable, hindex]
          rw [List.filter_cons_of_neg (by simp [hskip])]
          exact ih
      | some log_index =>
          cases htopic : log.topics.head? with
          | none =>
              have hskip : log.storable = false := by simp [RpcLog.storable, htopic]
              rw [List.filter_cons_of_neg (by simp [hskip])]
              exact ih
          | some topic_key =>
              have hstore : log.storable = true := by simp [RpcLog.storable, hindex, htopic]
              obtain ⟨log_json, hvalue⟩ := hjson log
              rw [List.filter_cons_of_pos hstore]
              refine Act.follows_bind.mpr (follows_orErr.mpr ⟨fun v _ => ?_, fun e he => ?_⟩)
              · refine Act.follows_bind.mpr (follows_await.mpr
                  ⟨⟨log, _, log_index, topic_key, v, rfl, hindex, rfl⟩, ?_⟩)
                rintro (e | k) hok
                · exact hok.elim
                · exact ih
              · rw [hvalue] at he
                cases he

theorem storing_indexBlockRange (hjson : lib.Serializes) {c : Chunk}
    (hc : last_processed_block < c.from_block) :
    Act.Follows (ix.storing last_processed_block) [] (ix.indexBlockRange lib c)
      fun todo _ => todo = [] := by
  refine Act.follows_bind.mpr (follows_await.mpr ⟨⟨rfl, hc⟩, ?_⟩)
  rintro (e | logs) -
  · exact rfl
  · refine Act.follows_bind.mpr (follows_orErr.mpr ⟨?_, fun e he => by cases he⟩)
    rintro _ ⟨⟩
    exact storing_storeLogs hjson logs

theorem storing_pollAndIndex (hjson : lib.Serializes) (hb : upper_bound_block ≤ u64Max) :
    Act.Follows (ix.storing last_processed_block) []
      (ix.pollAndIndex lib last_processed_block upper_bound_block) fun todo _ => todo = [] := by
  have hrel : ∀ (p : Progress) (todo : List RpcLog) (c : Chunk),
      (todo = [] ∧ last_processed_block ≤ p.reached) →
      (chunking upper_bound_block).allows p c →
      Prog.Follows (ix.storing last_processed_block) (fun todo' x =>
        (chunking upper_bound_block).admits p c x ∧ todo' = [] ∧
          last_processed_block ≤ ((chunking upper_bound_block).next p c x).reached) todo
        (ix.indexBlockRange lib c) := by
    rintro p todo c ⟨rfl, hlast⟩ ⟨-, hfrom, hspan, -⟩
    apply (storing_indexBlockRange hjson (by omega)).mono
    rintro todo' (e | a) htodo
    · exact ⟨trivial, htodo, hlast⟩
    · refine ⟨trivial, htodo, ?_⟩
      simp only [chunking, Progress.after]
      omega
  refine Prog.follows_interp hrel (fun _ _ _ h _ => h.1)
    (follows_pollEvents hb ix.config.max_block_range_pos) ⟨rfl, ?_⟩
  simp only [pollStart]
  split <;> omega

theorem storing_cycle (hjson : lib.Serializes) :
    Act.Follows (ix.storing last_processed_block) [] (ix.cycle lib last_processed_block)
      fun todo _ => todo = [] := by
  refine Act.follows_bind.mpr (Act.follows_attempt.mpr
    ((follows_resolveUpperBound (storing_ignoresLookups.at _ _)).mono ?_))
  rintro todo ((e | m) | upper_bound_block) h
  · exact h
  · exact h.elim
  · obtain rfl : todo = [] := h
    refine Act.follows_bind.mpr (Act.follows_attempt.mpr
      ((storing_pollAndIndex hjson (asU64_le _)).mono ?_))
    rintro todo ((_ | _) | _) h <;> exact h

end EventIndexer

/-! ## Over runs -/

/-- An INSERT failed. -/
def Label.failsInsert : Label → Bool
  | .call _ ⟨.db (.insertEventLog _), .error _⟩ => true
  | _ => false

/-- At some point of the run a row with the log's key was there. -/
def Recorded (lib : Externals) (s : Sys W) (ls : List Label) (t : Sys W) (log : RpcLog) : Prop :=
  ∃ ls₁ m ls₂, ls = ls₁ ++ ls₂ ∧ (system lib W).Run s ls₁ m ∧ (system lib W).Run m ls₂ t ∧
    m.shared.db.Has log

/-- The row made from the log is stored, under its own key or an older row's. -/
def Label.Stores (cfg : Config) (i : IndexerId) (log : RpcLog) (l : Label) : Prop :=
  ∃ log_index topic_key log_json k, log.log_index = some log_index ∧
    l = .call (.indexer i) ⟨.db (.insertEventLog
      ((i.indexer cfg).eventLogOf log log_index topic_key log_json)), .ok k⟩

/-- An INSERT that is executed leaves a row with the log's key. -/
theorem recorded_of_stores {s t : Sys W} {ls : List Label} {i : IndexerId} {log : RpcLog}
    {l : Label} (hrun : (system lib W).Run s ls t) (hl : l ∈ ls) (hstores : l.Stores cfg i log) :
    Recorded lib s ls t log := by
  obtain ⟨ls₁, m, m', ls₂, rfl, h₁, hstep, h₂⟩ := hrun.split hl
  obtain ⟨log_index, topic_key, log_json, k, hindex, rfl⟩ := hstores
  refine ⟨_, m', ls₂, (List.append_cons ls₁ _ ls₂), .snoc h₁ hstep, h₂, ?_⟩
  cases hstep with
  | call hr hrest hans =>
      cases hans with
      | db hans =>
          obtain ⟨r, hr, htx, hidx⟩ := hans.has
          refine ⟨r, hr, htx, ?_⟩
          rw [hidx, hindex]
          rfl

/-- The fetched logs a round still has to store. -/
def Running.todo (r : Running) : List RpcLog :=
  r.trace.foldl (fun todo e => EventIndexer.todoAfter todo e.op e.ans) []

namespace Sys

def todo (s : Sys W) (i : IndexerId) : List RpcLog :=
  (s.running (.indexer i)).elim [] Running.todo

/-- What is known of the indexers in a run without a failed INSERT: every log
fetched is stored or next in line, above the cursor. -/
structure Stored (lib : Externals) (s s₀ : Sys W) (ls : List Label) : Prop where
  run : (system lib W).Run s₀ ls s
  config : s.config = s₀.config
  coherent : s.Coherent lib
  inserted : ∀ v r, s.running v = some r → ∀ e ∈ r.trace, (Label.call v e).failsInsert = false
  atCursor : s.AtCursor
  fetched : ∀ i chain filter logs,
    .call (.indexer i) ⟨.rpc (.getLogs chain filter), .ok logs⟩ ∈ ls →
      ∀ log ∈ logs, log.storable = true →
        (∃ l ∈ ls, l.Stores s₀.config i log) ∨
          (s.cursor i < filter.from_block ∧ log ∈ s.todo i)

variable {s₀ s t : Sys W} {l : Label} {ls : List Label}

theorem after_storing {ix : EventIndexer} {last_processed_block : Nat} (g : List RpcLog)
    (tr : Trace Calls) : (ix.storing last_processed_block).after g tr =
      tr.foldl (fun todo e => EventIndexer.todoAfter todo e.op e.ans) g :=
  Protocol.after_eq_foldl _ g tr

theorem admits_of_inserted {ix : EventIndexer} {last_processed_block : Nat}
    {todo : List RpcLog} {v : Service} {o : Op} {x : o.Ans}
    (h : (Label.call v ⟨o, x⟩).failsInsert = false) :
    (ix.storing last_processed_block).admits todo o x := by
  cases o with
  | db st =>
      cases st with
      | insertEventLog n =>
          cases x with
          | error e => exact Bool.noConfusion h
          | ok k => trivial
      | _ => trivial
  | _ => trivial

/-- An indexer's round in progress follows the storing protocol. -/
theorem Stored.follows (h : s.Stored lib s₀ ls) (hjson : lib.Serializes) {i : IndexerId}
    {r : Running} (hr : s.running (.indexer i) = some r) :
    Act.Follows ((i.indexer s.config).storing (s.cursor i)) (s.todo i) r.rest
      fun todo _ => todo = [] := by
  obtain ⟨-, hsteps⟩ := h.coherent _ r hr
  rw [h.atCursor i r hr] at hsteps
  have hround : Act.Follows ((i.indexer s.config).storing (s.cursor i)) []
      (Job.prog lib s.config (.index i (s.cursor i))) fun todo _ => todo = [] := by
    refine Act.follows_bind.mpr ((EventIndexer.storing_cycle hjson).mono ?_)
    rintro todo (_ | _) htodo <;> exact htodo
  have hadm : ((i.indexer s.config).storing (s.cursor i)).Admitted [] r.trace := by
    refine Protocol.admitted_of_mem _ fun e he todo => ?_
    exact admits_of_inserted (h.inserted _ r hr e he)
  have hfollows := Prog.Follows.steps hround hsteps hadm
  rw [after_storing] at hfollows
  rw [todo, hr]
  exact hfollows

theorem todo_begin {job : Job} {i : IndexerId} (hidle : s.running job.service = none) :
    (s.begin lib job).todo i = s.todo i := by
  by_cases hi : .indexer i = job.service
  · simp [todo, Sys.begin, hi, hidle, Running.todo]
  · simp [todo, Sys.begin, Function.update_of_ne hi]

theorem todo_advance {i : IndexerId} {r : Running} {e : Event Calls}
    {rest : Action (Option Nat)} {sh : Shared W} (hr : s.running (.indexer i) = some r) :
    (s.advance (.indexer i) r e rest sh).todo i =
      EventIndexer.todoAfter (s.todo i) e.op e.ans := by
  simp [todo, advance, hr, Running.todo]

/-- A call of the indexer stores the log, or leaves it in line. -/
theorem Stored.keeps_call (h : s.Stored lib s₀ ls) (hjson : lib.Serializes) {i : IndexerId}
    {r : Running} {o : Op} {x : o.Ans}
    {k : o.Ans → Prog Calls (Except (Exit BridgeValidatorError) (Option Nat))} {sh : Shared W}
    (hr : s.running (.indexer i) = some r) (hrest : r.rest = Prog.call o k)
    (hans : s.shared.Answers o x sh)
    (hins : (Label.call (.indexer i) ⟨o, x⟩).failsInsert = false) {log : RpcLog}
    (hlog : log ∈ s.todo i) :
    (Label.call (.indexer i) ⟨o, x⟩).Stores s₀.config i log ∨
      log ∈ EventIndexer.todoAfter (s.todo i) o x := by
  have hfollows := h.follows hjson hr
  rw [hrest] at hfollows
  have hallow := hfollows.1
  cases hans with
  | @rpc rq x w hw =>
      cases rq with
      | getLogs chain filter =>
          rw [hallow.1] at hlog
          cases hlog
      | _ => exact Or.inr hlog
  | @db st x db' hans =>
      cases st with
      | insertEventLog row =>
          obtain ⟨log₀, rest, log_index, topic_key, log_json, hhead, hindex, rfl⟩ := hallow
          cases x with
          | error e => exact Bool.noConfusion hins
          | ok k =>
              rw [hhead] at hlog ⊢
              rcases List.mem_cons.mp hlog with rfl | hlog
              · rw [h.config]
                exact Or.inl ⟨log_index, topic_key, log_json, k, hindex, rfl⟩
              · exact Or.inr hlog
      | _ => exact hallow.elim
  | sent _ => exact hallow.elim
  | closed => exact hallow.elim

/-- A log that is next in line stays there until it is stored. -/
theorem Stored.keeps (h : s.Stored lib s₀ ls) (hjson : lib.Serializes) (hstep : s.Step lib l t)
    (hend : l.ends = false) (hins : l.failsInsert = false) {i : IndexerId} {n : Nat}
    {log : RpcLog} (hcur : s.cursor i < n) (hlog : log ∈ s.todo i) :
    l.Stores s₀.config i log ∨ (t.cursor i < n ∧ log ∈ t.todo i) := by
  have hbegin : ∀ job : Job, s.running job.service = none →
      s.cursor i < n ∧ log ∈ (s.begin lib job).todo i := by
    intro job hidle
    rw [todo_begin hidle]
    exact ⟨hcur, hlog⟩
  cases hstep with
  | @index j hidle => exact Or.inr (hbegin (.index j _) hidle.1)
  | @process k hidle hsd => exact Or.inr (hbegin (.process k) hidle.1)
  | @recv data rest hidle hch =>
      have hpop : s.popChannel.running (Job.service (.send data)) = none := hidle.1
      refine Or.inr ⟨hcur, ?_⟩
      rw [todo_begin hpop]
      exact hlog
  | check hidle hfcr => exact Or.inr (hbegin .check hidle.1)
  | @call v r o c x sh hr hrest hans =>
      by_cases hv : v = .indexer i
      · subst hv
        have htodo : (s.advance (.indexer i) r ⟨o, x⟩ (c x) sh).todo i =
            EventIndexer.todoAfter (s.todo i) o x := todo_advance hr
        rw [htodo]
        exact (h.keeps_call hjson hr hrest hans hins hlog).imp_right fun hleft => ⟨hcur, hleft⟩
      · refine Or.inr ⟨hcur, ?_⟩
        simpa [todo, advance, Function.update_of_ne (Ne.symm hv)] using hlog
  | @finish v r result hr hrest =>
      by_cases hv : v = .indexer i
      · subst hv
        have hfollows := h.follows hjson hr
        rw [hrest] at hfollows
        have hnone : s.todo i = [] := hfollows
        rw [hnone] at hlog
        cases hlog
      · refine Or.inr ⟨?_, ?_⟩
        · rw [cursor_done (h.coherent v r hr).1 hv]
          exact hcur
        · simpa [todo, Sys.done, Function.update_of_ne (Ne.symm hv)] using hlog
  | panic hr hrest => cases hend
  | exit hidle hexit => exact Or.inr ⟨hcur, hlog⟩
  | signal => exact Or.inr ⟨hcur, hlog⟩
  | tick _ => exact Or.inr ⟨hcur, hlog⟩
  | restart => cases hend

theorem Stored.step (h : s.Stored lib s₀ ls) (hjson : lib.Serializes)
    (hidle : ∀ v, s₀.running v = none) (hstep : s.Step lib l t)
    (hend : l.ends = false) (hins : ∀ l' ∈ ls ++ [l], l'.failsInsert = false) :
    t.Stored lib s₀ (ls ++ [l]) := by
  have hrun : (system lib W).Run s₀ (ls ++ [l]) t := .snoc h.run hstep
  have hlast : l.failsInsert = false :=
    hins l (List.mem_append_right _ (List.mem_singleton_self _))
  refine ⟨hrun, (hstep.config_eq (Label.isRestart_of_ends hend)).trans h.config,
    h.coherent.step hstep, ?_, h.atCursor.step h.coherent hstep, ?_⟩
  · intro v r hr e he
    exact hins _ (call_mem_labels hrun hidle hr e he)
  · intro i chain filter logs hmem log hlog hstorable
    rcases List.mem_append.mp hmem with hmem | hmem
    · rcases h.fetched i chain filter logs hmem log hlog hstorable with
        ⟨l', hl', hstores⟩ | ⟨hcur, htodo⟩
      · exact Or.inl ⟨l', List.mem_append_left _ hl', hstores⟩
      · refine (h.keeps hjson hstep hend hlast hcur htodo).imp_left fun hstores => ?_
        exact ⟨l, List.mem_append_right _ (List.mem_singleton_self _), hstores⟩
    · -- the answer has just come in: its logs are next in line
      obtain rfl := List.mem_singleton.mp hmem
      right
      cases hstep with
      | @call v r o c x sh hr hrest hans =>
          have hfollows := h.follows hjson hr
          rw [hrest] at hfollows
          have hnext : log ∈ EventIndexer.todoAfter (s.todo i) (.rpc (.getLogs chain filter))
              (.ok logs) := List.mem_filter.mpr ⟨hlog, hstorable⟩
          exact ⟨hfollows.1.2, (congrArg (log ∈ ·) (todo_advance hr)).mpr hnext⟩

end Sys

theorem Sys.stored_run {db : Db} {w : W.State} {t : Sys W} {ls : List Label}
    (hjson : lib.Serializes) (hrun : (system lib W).Run (Sys.boot cfg db w) ls t)
    (hends : ∀ l ∈ ls, l.ends = false) (hins : ∀ l ∈ ls, l.failsInsert = false) :
    t.Stored lib (Sys.boot cfg db w) ls := by
  induction hrun with
  | nil =>
      exact ⟨.nil, rfl, coherent_boot, fun _ _ hr => (by cases hr), fun _ _ hr => (by cases hr),
        fun _ _ _ _ hmem => (by cases hmem)⟩
  | @snoc ls s l t _ hstep ih =>
      have hs := ih (fun l hl => hends l (List.mem_append_left _ hl))
        (fun l hl => hins l (List.mem_append_left _ hl))
      have hend := hends l (List.mem_append_right _ (List.mem_singleton_self _))
      exact hs.step hjson (fun _ => rfl) hstep hend hins

/-- **No log stays behind the cursor while INSERTs are executed.** In every run of
the process in which no INSERT fails, a storable log that an indexer has fetched
from a range its cursor has reached was in the table at some point. -/
theorem fetched_logs_are_recorded {db : Db} {w : W.State} {t : Sys W} {ls : List Label}
    (hjson : lib.Serializes) (hrun : (system lib W).Run (Sys.boot cfg db w) ls t)
    (hends : ∀ l ∈ ls, l.ends = false) (hins : ∀ l ∈ ls, l.failsInsert = false)
    {i : IndexerId} {chain : Chain} {filter : Filter} {logs : List RpcLog}
    (hlogs : .call (.indexer i) ⟨.rpc (.getLogs chain filter), .ok logs⟩ ∈ ls)
    (hcursor : filter.from_block ≤ t.cursor i) {log : RpcLog} (hlog : log ∈ logs)
    (hstorable : log.storable = true) : Recorded lib (Sys.boot cfg db w) ls t log := by
  have hstored := Sys.stored_run hjson hrun hends hins
  rcases hstored.fetched i chain filter logs hlogs log hlog hstorable with
    ⟨l, hl, hstores⟩ | ⟨hlt, -⟩
  · exact recorded_of_stores hrun hl hstores
  · exact absurd hcursor (not_le.mpr hlt)

/-! ## One cycle over one block -/

theorem Deployment.serializes : Deployment.externals.Serializes := fun _ => ⟨_, rfl⟩

/-- A storable log was fetched from below the cursor. -/
def Label.fetchesBelow (i : IndexerId) (cursor : Nat) : Label → Bool
  | .call (.indexer j) ⟨.rpc (.getLogs _ filter), .ok logs⟩ =>
      j == i && decide (filter.from_block ≤ cursor) && logs.any RpcLog.storable
  | _ => false

theorem Label.exists_of_fetchesBelow {i : IndexerId} {cursor : Nat} {l : Label}
    (h : l.fetchesBelow i cursor = true) : ∃ chain filter logs log,
      l = .call (.indexer i) ⟨.rpc (.getLogs chain filter), .ok logs⟩ ∧
      filter.from_block ≤ cursor ∧ log ∈ logs ∧ log.storable = true := by
  unfold fetchesBelow at h
  split at h
  · simp only [Bool.and_eq_true, beq_iff_eq, decide_eq_true_eq, List.any_eq_true] at h
    obtain ⟨⟨rfl, hfrom⟩, log, hlog, hstorable⟩ := h
    exact ⟨_, _, _, log, rfl, hfrom, hlog, hstorable⟩
  · cases h

/-- The log is fetched, and it is stored. -/
theorem fetched_logs_are_recorded_once :
    ∃ (t : Sys World.any) (ls : List Label) (log : RpcLog), log.storable = true ∧
      Recorded Deployment.externals (Sys.boot Deployment.config Db.empty ()) ls t log := by
  have hboot : (Sys.boot Deployment.config Db.empty () : Sys World.any).Resting :=
    Sys.resting_boot
  obtain ⟨ls, t, hrun, -, hp⟩ := Turn.exists_of_playAll
    [.index .ETHAmb (Deployment.lookups (.repeatByte 32 0xaa))]
    (fun q => q.1.all (fun l => !l.ends && !l.failsInsert) &&
      q.1.any (Label.fetchesBelow .ETHAmb (q.2.cursor .ETHAmb)))
    Turn.sound_any hboot
    (show (Turn.playAll Deployment.externals _ _).any _ = true by decide +kernel)
  simp only [Bool.and_eq_true, List.all_eq_true, List.any_eq_true, Bool.not_eq_eq_eq_not,
    Bool.not_true] at hp
  obtain ⟨hlabels, l, hl, hfetch⟩ := hp
  obtain ⟨chain, filter, logs, log, rfl, hcursor, hlog, hstorable⟩ :=
    Label.exists_of_fetchesBelow hfetch
  exact ⟨t, ls, log, hstorable, fetched_logs_are_recorded Deployment.serializes hrun
    (fun l hl => (hlabels l hl).1) (fun l hl => (hlabels l hl).2) hl hcursor hlog hstorable⟩

/-- An INSERT was executed. -/
def Label.inserts : Label → Bool
  | .call _ ⟨.db (.insertEventLog _), .ok _⟩ => true
  | _ => false

/-- The rows of a table that was empty come from the INSERTs of the run. -/
theorem Sys.inserted_of_run {s t : Sys W} {ls : List Label} (hrun : (system lib W).Run s ls t)
    (hk : s.shared.db.Keyed) (hs : s.shared.db.event_logs = []) {id : Int} {r : EventLog}
    (hr : t.row? id = some r) : ∃ v n, .call v ⟨.db (.insertEventLog n), .ok 1⟩ ∈ ls ∧
      (n.toRow id).SameLog r := by
  have hkeyed : ∀ {ls : List Label} {t : Sys W}, (system lib W).Run s ls t →
      t.shared.db.Keyed := fun hrun => hrun.invariant (fun _ _ _ hk hstep => hstep.keyed hk) hk
  induction hrun generalizing r with
  | nil =>
      have hmem := Db.row?_mem hr
      rw [hs] at hmem
      cases hmem
  | @snoc ls m l u hrun hstep ih =>
      rcases hstep.origin (hkeyed hrun) hr with ⟨r₀, hr₀, hsame⟩ | ⟨v, n, rfl, rfl⟩
      · obtain ⟨v, n, hmem, hsame₀⟩ := ih hr₀
        exact ⟨v, n, List.mem_append_left _ hmem, hsame₀.trans hsame⟩
      · exact ⟨v, n, List.mem_append_right _ (List.mem_singleton_self _), .refl⟩

theorem Sys.empty_of_run {s t : Sys W} {ls : List Label} (hrun : (system lib W).Run s ls t)
    (hk : s.shared.db.Keyed) (hs : s.shared.db.event_logs = [])
    (hins : ∀ l ∈ ls, l.inserts = false) {id : Int} : t.row? id = none := by
  cases hr : t.row? id with
  | none => rfl
  | some r =>
      obtain ⟨v, n, hmem, -⟩ := inserted_of_run hrun hk hs hr
      cases hins _ hmem

/-- The ids of the table are used up, so its INSERT fails; the log is fetched,
and the cursor goes past it all the same. -/
theorem fetched_log_is_lost :
    ¬ ∀ (lib : Externals) (W : World) (cfg : Config) (db : Db) (w : W.State) (t : Sys W)
      (ls : List Label), lib.Serializes → (system lib W).Run (Sys.boot cfg db w) ls t →
      (∀ l ∈ ls, l.ends = false) → ∀ (i : IndexerId) (chain : Chain) (filter : Filter)
      (logs : List RpcLog) (log : RpcLog),
      .call (.indexer i) ⟨.rpc (.getLogs chain filter), .ok logs⟩ ∈ ls →
      filter.from_block ≤ t.cursor i → log ∈ logs → log.storable = true →
      Recorded lib (Sys.boot cfg db w) ls t log := by
  intro hclaim
  have hboot : (Sys.boot Deployment.config { Db.empty with next_id := i32Max + 1 } () :
      Sys World.any).Resting := Sys.resting_boot
  obtain ⟨ls, t, hrun, -, hp⟩ := Turn.exists_of_playAll
    [.index .ETHAmb (Deployment.lookups (.repeatByte 32 0xaa))]
    (fun q => q.1.all (fun l => !l.ends && !l.inserts) &&
      q.1.any (Label.fetchesBelow .ETHAmb (q.2.cursor .ETHAmb)))
    Turn.sound_any hboot
    (show (Turn.playAll Deployment.externals _ _).any _ = true by decide +kernel)
  simp only [Bool.and_eq_true, List.all_eq_true, List.any_eq_true, Bool.not_eq_eq_eq_not,
    Bool.not_true] at hp
  obtain ⟨hlabels, l, hl, hfetch⟩ := hp
  obtain ⟨chain, filter, logs, log, rfl, hcursor, hlog, hstorable⟩ :=
    Label.exists_of_fetchesBelow hfetch
  obtain ⟨ls₁, m, ls₂, rfl, hrun₁, -, r, hr, -⟩ := hclaim _ _ _ _ _ t ls Deployment.serializes hrun
    (fun l hl => (hlabels l hl).1) _ _ _ _ log hl hcursor hlog hstorable
  have hkeyed : ({ Db.empty with next_id := i32Max + 1 } : Db).Keyed :=
    ⟨List.nodup_nil, fun _ hr => by cases hr⟩
  have hkeyed' : m.shared.db.Keyed :=
    hrun₁.invariant (fun _ _ _ hk hstep => Sys.Step.keyed hk hstep) hkeyed
  have hempty : m.row? r.id = none := Sys.empty_of_run hrun₁ hkeyed rfl
    fun l hl => (hlabels l (List.mem_append_left _ hl)).2
  have hrow : m.row? r.id = some r := hkeyed'.row?_of_mem hr
  rw [hempty] at hrow
  cases hrow

end BridgeValidator
