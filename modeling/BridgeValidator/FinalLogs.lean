import BridgeValidator.Chunks
import BridgeValidator.Network

/-!
# Logs of final blocks

In block-finality mode an indexer goes up to the latest finalized block, as one
provider tells it. The logs come from whichever node of the fallback set is the
first to answer, and that node may not have come as far. Where it has, the stored
logs are canonical: they are in the chunks of the poll, and these end at the bound.
-/

namespace BridgeValidator

open Interaction

variable {lib : Externals} {net : Network}

/-- The log is in a block of the final chain. -/
def RpcLog.IsCanonicalOn (net : Network) (chain : Chain) (log : RpcLog) : Prop :=
  ∃ n h, log.block_number = some n ∧ log.block_hash = some h ∧ h = net.canonical chain (asI64 n)

/-- The row names a block of the final chain. -/
def NewEventLog.IsCanonicalOn (net : Network) (chain : Chain) (row : NewEventLog) : Prop :=
  ∃ n, row.block_number = some n ∧ row.block_hash = some (net.canonical chain n).debug

theorem RpcLog.IsCanonicalOn.row {chain : Chain} {log : RpcLog} (h : log.IsCanonicalOn net chain)
    (ix : EventIndexer) (log_index : Nat) (topic_key : B256) (log_json : Json) :
    (ix.eventLogOf log log_index topic_key log_json).IsCanonicalOn net chain := by
  obtain ⟨n, hash, hnumber, hhash, rfl⟩ := h
  refine ⟨asI64 n, ?_, ?_⟩
  · rw [EventIndexer.eventLogOf, hnumber, Option.map_some]
  · rw [EventIndexer.eventLogOf, hhash, Option.map_some]

/-- The node that answers an indexer in block-finality mode with logs has finalized all
that the indexer's round has been told is final. -/
def Sys.backs (s : Sys (World.network net)) : Label → Bool
  | .call (.indexer i) ⟨.rpc (.getLogs chain _), .ok _⟩ =>
      (i.indexer s.config).mode.isFcr ||
        (s.running (.indexer i)).all fun r => r.told.all fun finalized_block =>
          decide (finalized_block ≤ (s.shared.world.el (s.shared.world.first chain)).finalized)
  | _ => true

/-- The system, with all logs from nodes that have come as far as the number told. -/
def backed (lib : Externals) (net : Network) : Machine (Sys (World.network net)) Label :=
  (system lib (World.network net)).guarded fun s l _ => s.backs l = true

/-- Whatever an indexer in block-finality mode stores, in a run of `M` from here on, names a
block of the final chain. -/
def StoresFinalLogs (M : Machine (Sys (World.network net)) Label)
    (s₀ : Sys (World.network net)) : Prop :=
  ∀ (i : IndexerId) (row : NewEventLog) (k : Nat) (ls : List Label)
    (s t : Sys (World.network net)), M.Run s₀ ls s →
    M.step s (.call (.indexer i) ⟨.db (.insertEventLog row), .ok k⟩) t →
    (i.indexer s.config).mode = .blockFinality → row.IsCanonicalOn net i.chain

/-! ## What an indexer asks for -/

namespace EventIndexer

/-- In block-finality mode no log is asked for above the finalized number told last. -/
def bounded (ix : EventIndexer) : Protocol Calls (Option Int) where
  allows told
    | .rpc (.getLogs _ filter) => ix.mode.isFcr = false →
        ∃ finalized_block, told = some finalized_block ∧ (filter.to_block : Int) ≤ finalized_block
    | _ => True
  admits _ _ _ := True
  next := toldAfter

variable {lib : Externals} {ix : EventIndexer} {told : Option Int} {finalized_block : Int}
  {last_processed_block upper_bound_block : Nat}

theorem bounded_remembers : Remembers ix.bounded where
  beacon _ _ := trivial
  el _ _ := trivial
  next := rfl

theorem bounded_storeLogs (logs : List RpcLog) :
    Act.Follows ix.bounded told (ix.storeLogs lib logs) fun told' _ => told' = told := by
  apply (inserts_storeLogs logs (fun _ _ _ _ _ _ _ _ => trivial) fun _ _ => rfl).mono
  rintro _ ((e | m) | a) h
  · exact h
  · exact h.elim
  · exact h

theorem bounded_indexBlockRange {c : Chunk} (hto : (c.to_block : Int) ≤ finalized_block) :
    Act.Follows ix.bounded (some finalized_block) (ix.indexBlockRange lib c)
      fun told _ => told = some finalized_block := by
  refine Act.follows_bind.mpr (follows_await.mpr ⟨fun _ => ⟨_, rfl, hto⟩, ?_⟩)
  rintro (e | logs) -
  · rfl
  · refine Act.follows_bind.mpr (follows_orErr.mpr ⟨?_, fun e he => by cases he⟩)
    rintro _ ⟨⟩
    exact bounded_storeLogs logs

/-- The chunks of a poll end at its bound, which is not above the number it is made from. -/
theorem bounded_pollAndIndex :
    Act.Follows ix.bounded (some finalized_block)
      (ix.pollAndIndex lib last_processed_block (asU64 (max finalized_block 0)))
      fun _ _ => True := by
  have hrel : ∀ (p : Progress) (told : Option Int) (c : Chunk), told = some finalized_block →
      (chunking (asU64 (max finalized_block 0))).allows p c →
      Prog.Follows ix.bounded (fun told' x =>
        (chunking (asU64 (max finalized_block 0))).admits p c x ∧ told' = some finalized_block)
        told (ix.indexBlockRange lib c) := by
    rintro p told c rfl ⟨-, hfrom, hspan, hto⟩
    have hbound : (asU64 (max finalized_block 0) : Int) ≤ max finalized_block 0 :=
      asU64_le_self (le_max_right _ _)
    have hfinal : (c.to_block : Int) ≤ finalized_block := by omega
    apply (bounded_indexBlockRange hfinal).mono
    rintro told' x rfl
    exact ⟨trivial, rfl⟩
  exact Prog.follows_interp hrel (fun _ _ _ _ _ => trivial)
    (follows_pollEvents (asU64_le _) ix.config.max_block_range_pos) rfl

theorem bounded_cycle :
    Act.Follows ix.bounded told (ix.cycle lib last_processed_block) fun _ _ => True := by
  cases hmode : ix.mode.isFcr with
  | true =>
      -- in fcr mode nothing is claimed of the bound
      refine Prog.follows_of_allows (fun told o => ?_) _
      cases o with
      | rpc rq =>
          cases rq with
          | getLogs chain filter =>
              intro hfinality
              rw [hmode] at hfinality
              cases hfinality
          | _ => trivial
      | _ => trivial
  | false =>
      have hbound : Act.Follows ix.bounded told ix.resolveUpperBound Reported := by
        rw [resolveUpperBound, if_neg (by rw [hmode]; exact Bool.false_ne_true)]
        exact bounded_remembers.follows_getFinalizedBlockNumber
      refine Act.follows_bind.mpr (Act.follows_attempt.mpr (hbound.mono ?_))
      rintro told' ((e | m) | finalized_block) htold
      · trivial
      · trivial
      · obtain rfl : told' = some finalized_block := htold
        refine Act.follows_bind.mpr (Act.follows_attempt.mpr (bounded_pollAndIndex.mono ?_))
        rintro _ ((_ | _) | _) - <;> trivial

theorem mode_of_eventLogOf {log : RpcLog} {log_index : Nat} {topic_key : B256} {log_json : Json}
    (h : (ix.eventLogOf log log_index topic_key log_json).fcr_status = none) :
    ix.mode = .blockFinality := by
  unfold eventLogOf at h
  cases hmode : ix.mode with
  | fcr =>
      rw [hmode] at h
      cases h
  | blockFinality => rfl

end EventIndexer

theorem Job.bounded_index {cfg : Config} (i : IndexerId) (last_processed_block : Nat) :
    Act.Follows (i.indexer cfg).bounded none (Job.prog lib cfg (.index i last_processed_block))
      fun _ _ => True := by
  refine Act.follows_bind.mpr (EventIndexer.bounded_cycle.mono ?_)
  rintro _ (_ | _) - <;> trivial

/-! ## Over runs -/

namespace Sys

variable {s t : Sys (World.network net)} {l : Label} {ls : List Label}

/-- What is known of the logs an indexer fetches. -/
def final (net : Network) (i : IndexerId) (cfg : Config) (log : RpcLog) : Prop :=
  (i.indexer cfg).mode.isFcr = false → log.IsCanonicalOn net i.chain

/-- Logs that are backed are canonical: the number told lies between the end of the chunk
and the head of the node that answers. -/
theorem admits_of_backs {i : IndexerId} {r : Running} {o : Op} {x : o.Ans}
    {sh : Shared (World.network net)} (hr : s.running (.indexer i) = some r)
    (hasks : ((i.indexer s.config).protocol fun _ => True).allows () o)
    (hbounded : (i.indexer s.config).bounded.allows r.told o)
    (hans : s.shared.Answers o x sh) (hbacked : s.backs (.call (.indexer i) ⟨o, x⟩) = true) :
    ((i.indexer s.config).protocol (final net i s.config)).admits () o x := by
  cases hans with
  | @rpc rq x w hw =>
      cases rq with
      | getLogs chain filter =>
          cases x with
          | error e => trivial
          | ok logs =>
              intro log hlog hmode
              obtain ⟨rfl, -⟩ := hasks
              obtain ⟨hof, hshows⟩ := hw.2
              obtain ⟨n, h, hnumber, hhash, -, hto, hat⟩ := hshows log hlog
              obtain ⟨finalized_block, htold, hle⟩ := hbounded hmode
              simp only [backs, hmode, hr, htold, Option.all_some, Bool.false_or,
                decide_eq_true_eq] at hbacked
              have hfinal : asI64 n ≤ (s.shared.world.el
                  (s.shared.world.first (i.indexer s.config).provider)).finalized :=
                calc asI64 n ≤ n := asI64_le_self n
                  _ ≤ filter.to_block := Int.ofNat_le.mpr hto
                  _ ≤ finalized_block := hle
                  _ ≤ _ := hbacked
              refine ⟨n, h, hnumber, hhash, ?_⟩
              rw [← i.provider_eq s.config, ← hof]
              exact (s.shared.world.el _).agrees _ h hfinal hat
      | _ => trivial
  | _ => trivial

/-- What the indexers are storing as final is final. -/
structure Backed (lib : Externals) (s : Sys (World.network net)) : Prop where
  coherent : s.Coherent lib
  told : ∀ i, s.Heard (fun cfg => (IndexerId.indexer cfg i).protocol (final net i cfg)) ()
    (.indexer i)

theorem Backed.step (h : s.Backed lib) (hstep : s.Step lib l t) (hbacked : s.backs l = true) :
    t.Backed lib := by
  refine ⟨h.coherent.step hstep, fun i => (h.told i).step hstep ?_⟩
  rintro r o x sh hr rfl hans
  cases hstep with
  | @call _ r' o k x sh hr' hrest hans' =>
      obtain rfl := Option.some.inj (hr.symm.trans hr')
      have hallow := h.coherent.running_allows hr hrest
      have hservice := (h.coherent _ r hr).1
      unfold Running.Allows at hallow
      cases hjob : r.job with
      | index j last_processed_block =>
          rw [hjob] at hallow hservice
          obtain rfl : j = i := Service.indexer.inj hservice
          have hbounded := h.coherent.allows hr hrest hjob
            (Job.bounded_index j last_processed_block)
            (Protocol.admitted_of_all _ (fun _ _ _ => trivial) _ _)
          rw [EventIndexer.bounded_remembers.after_trace] at hbounded
          exact admits_of_backs hr hallow hbounded hans hbacked
      | _ =>
          rw [hjob] at hservice
          cases hservice

/-- An indexer stores rows made from the logs it has fetched. -/
theorem Backed.stores (h : s.Backed lib) {i : IndexerId} {row : NewEventLog}
    {x : Except String Nat}
    (hstep : s.Step lib (.call (.indexer i) ⟨.db (.insertEventLog row), x⟩) t)
    (hmode : (i.indexer s.config).mode.isFcr = false) : row.IsCanonicalOn net i.chain := by
  cases hstep with
  | @call _ r _ k _ sh hr hrest hans =>
      have hservice := (h.coherent _ r hr).1
      cases hjob : r.job with
      | index j last_processed_block =>
          rw [hjob] at hservice
          obtain rfl : j = i := Service.indexer.inj hservice
          obtain ⟨log, log_index, topic_key, log_json, hgood, rfl⟩ := h.coherent.allows hr hrest
            hjob (Job.follows_index j last_processed_block) (h.told j r hr)
          exact (hgood hmode).row _ _ _ _
      | _ =>
          rw [hjob] at hservice
          cases hservice

end Sys

/-- **Stored logs are final as long as they are backed.** In every run in which the node
that answers an indexer in block-finality mode has come as far as the number the indexer
has been told, every row that is stored in this mode names a block of the final chain. -/
theorem stores_final_logs_of_backed (cfg : Config) (db : Db) (w : Views net) :
    StoresFinalLogs (backed lib net) (Sys.boot cfg db w) := by
  intro i row k ls s t hrun hstep hmode
  have hboot : (Sys.boot cfg db w).Backed lib :=
    ⟨Sys.coherent_boot, fun i r hr => by cases hr⟩
  have hs : s.Backed lib :=
    hrun.invariant (fun _ _ _ hs hstep => hs.step hstep.1 hstep.2) hboot
  apply hs.stores hstep.1
  rw [hmode]
  rfl

/-! ## Bounds and logs from different nodes -/

/-- A row was stored in block-finality mode, with this hash. -/
def Label.storesFinal (hash : String) : Label → Bool
  | .call (.indexer _) ⟨.db (.insertEventLog row), .ok 1⟩ =>
      row.fcr_status == none && row.block_hash == some hash
  | _ => false

theorem Label.exists_of_storesFinal {hash : String} {l : Label} (h : l.storesFinal hash = true) :
    ∃ i row, l = .call (.indexer i) ⟨.db (.insertEventLog row), .ok 1⟩ ∧
      row.fcr_status = none ∧ row.block_hash = some hash := by
  unfold storesFinal at h
  split at h
  · rename_i i row
    simp only [Bool.and_eq_true, beq_iff_eq] at h
    exact ⟨i, row, rfl, h.1, h.2⟩
  · cases h

/-- Such a row has been stored in block-finality mode. -/
theorem exists_stored_of_storesFinal
    {G : Sys (World.network net) → Label → Sys (World.network net) → Prop} {cfg : Config}
    {db : Db} {w : Views net} {ls : List Label} {t : Sys (World.network net)} {hash : String}
    (hrun : ((system lib (World.network net)).guarded G).Run (Sys.boot cfg db w) ls t)
    (h : ls.any (Label.storesFinal hash) = true) :
    ∃ (i : IndexerId) (row : NewEventLog) (k : Nat) (ls₁ : List Label)
      (m m' : Sys (World.network net)),
      ((system lib (World.network net)).guarded G).Run (Sys.boot cfg db w) ls₁ m ∧
      ((system lib (World.network net)).guarded G).step m
        (.call (.indexer i) ⟨.db (.insertEventLog row), .ok k⟩) m' ∧
      (i.indexer m.config).mode = .blockFinality ∧ row.block_hash = some hash := by
  obtain ⟨l, hl, hstores⟩ := List.any_eq_true.mp h
  obtain ⟨i, row, rfl, hstatus, hhash⟩ := Label.exists_of_storesFinal hstores
  obtain ⟨ls₁, m, m', ls₂, rfl, h₁, hstep, -⟩ := hrun.split hl
  have hm : m.Coherent lib :=
    h₁.invariant (fun _ _ _ hs hstep => hs.step hstep.1) Sys.coherent_boot
  have hmode : (i.indexer m.config).mode = .blockFinality := by
    have hstep' : m.Step lib (.call (.indexer i) ⟨.db (.insertEventLog row), .ok 1⟩) m' := hstep.1
    cases hstep' with
    | call hr hrest hans =>
        obtain ⟨j, log, log_index, topic_key, log_json, hj, rfl⟩ := hm.insert_allows hr hrest
        obtain rfl : i = j := Service.indexer.inj hj
        exact EventIndexer.mode_of_eventLogOf hstatus
  exact ⟨i, row, 1, ls₁, m, m', h₁, hstep, hmode, hhash⟩

open Deployment in
/-- The node that told the bound has the logs as well. -/
theorem stores_final_logs_of_backed_primary :
    ∃ (i : IndexerId) (row : NewEventLog) (k : Nat) (ls : List Label)
      (s t : Sys (World.network (network (.repeatByte 32 0xbb)))),
      (backed externals _).Run
        (Sys.boot twoNodes Db.empty (lagging (.repeatByte 32 0xbb) primary)) ls s ∧
      (backed externals _).step s (.call (.indexer i) ⟨.db (.insertEventLog row), .ok k⟩) t ∧
      row.block_hash = some (FixedBytes.repeatByte 32 0xbb).debug ∧
      row.IsCanonicalOn (network (.repeatByte 32 0xbb)) i.chain := by
  have hboot : (Sys.boot twoNodes Db.empty (lagging (.repeatByte 32 0xbb) primary) :
      Sys (World.network (network (.repeatByte 32 0xbb)))).Resting := Sys.resting_boot
  have hsound : ∀ turn ∈ [Turn.index .GCAmb (asked (.repeatByte 32 0xbb) "http://gc-el-1")],
      turn.Sound := by
    simp [Turn.Sound, asked_truthful]
  obtain ⟨ls, t, hrun, -, hp⟩ := Turn.exists_of_playGuarded _
    (fun q => q.1.any (Label.storesFinal (FixedBytes.repeatByte 32 0xbb).debug)) hsound hboot
    (show (Turn.playGuarded externals (fun s l _ => s.backs l = true) _ _).any _ = true by
      decide +kernel)
  obtain ⟨i, row, k, ls₁, m, m', h₁, hstep, hmode, hhash⟩ := exists_stored_of_storesFinal hrun hp
  exact ⟨i, row, k, ls₁, m, m', h₁, hstep, hhash,
    stores_final_logs_of_backed _ _ _ i row k ls₁ m m' h₁ hstep hmode⟩

open Deployment in
/-- The first node tells that block 200 is final; the second one, which has
finalized only block 50, is faster with the logs and has another block 200. -/
theorem forked_log_is_stored :
    ¬ ∀ (lib : Externals) (net : Network) (cfg : Config) (w : Views net),
      cfg.servedBy net = true → StoresFinalLogs (served lib net) (Sys.boot cfg Db.empty w) := by
  intro hclaim
  have hboot : (Sys.boot twoNodes Db.empty (lagging (.repeatByte 32 0xbb) second) :
      Sys (World.network (network (.repeatByte 32 0xbb)))).Resting := Sys.resting_boot
  have hsound : ∀ turn ∈ [Turn.index .GCAmb (asked (.repeatByte 32 0xbb) "http://gc-el-1")],
      turn.Sound := by
    simp [Turn.Sound, asked_truthful]
  obtain ⟨ls, t, hrun, -, hp⟩ := Turn.exists_of_playGuarded _
    (fun q => q.1.any (Label.storesFinal (FixedBytes.repeatByte 32 0xaa).debug)) hsound hboot
    (show (Turn.playGuarded externals (fun _ l _ =>
      l.keepsServed (network (.repeatByte 32 0xbb)) = true) _ _).any _ = true by decide +kernel)
  obtain ⟨i, row, k, ls₁, m, m', h₁, hstep, hmode, hhash⟩ := exists_stored_of_storesFinal hrun hp
  obtain ⟨n, -, hfinal⟩ := hclaim _ _ _ _ (by decide) i row k ls₁ m m' h₁ hstep hmode
  have hfork : (FixedBytes.repeatByte 32 0xaa).debug ≠ (FixedBytes.repeatByte 32 0xbb).debug := by
    decide
  exact hfork (Option.some.inj (hhash.symm.trans hfinal))

end BridgeValidator
