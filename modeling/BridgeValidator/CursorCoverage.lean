import BridgeValidator.Chunks
import BridgeValidator.Rounds

/-!
# What the cursor stands for

The loop of `start` from cursor 0, cycle by cycle: which upper bound a cycle
resolved and what `index_block_range` made of its chunks. With nothing indexed
yet a cycle asks for its own bound only, so the cursor stands for the blocks
from the first bound that came through, which need not be the first bound
there was.
-/

namespace BridgeValidator

open Interaction

namespace EventIndexer

/-! ## Cycles -/

/-- What a cycle did: the bound it resolved, if it did, and its chunks with
their outcomes. -/
structure CycleRecord where
  bound : Option Nat
  chunks : Trace ChunkCalls

variable (lib : Externals) (ix : EventIndexer)

/-- A cycle that ran along a trace of calls did this, and left this cursor. -/
inductive Reads (last_processed_block : Nat) : Trace Calls → CycleRecord → Nat → Prop
  | unresolved {tr : Trace Calls} {e : BridgeValidatorError}
      (hres : Prog.Runs ix.resolveUpperBound tr (.error (.error e))) :
      Reads last_processed_block tr ⟨none, []⟩ last_processed_block
  | advanced {tr₁ tr₂ : Trace Calls} {upper_bound_block : Int} {chunks : Trace ChunkCalls}
      {new_block : Nat} (hres : Prog.Runs ix.resolveUpperBound tr₁ (.ok upper_bound_block))
      (hpoll : Prog.Runs (pollEvents ix.config.max_block_range last_processed_block
        (asU64 (max upper_bound_block 0))) chunks (.ok new_block))
      (hlink : @Prog.Linked ChunkCalls Calls (fun c => ix.indexBlockRange lib c) chunks tr₂) :
      Reads last_processed_block (tr₁ ++ tr₂) ⟨some (asU64 (max upper_bound_block 0)), chunks⟩
        new_block
  | failed {tr₁ tr₂ : Trace Calls} {upper_bound_block : Int} {chunks : Trace ChunkCalls}
      {e : BridgeValidatorError}
      (hres : Prog.Runs ix.resolveUpperBound tr₁ (.ok upper_bound_block))
      (hpoll : Prog.Runs (pollEvents ix.config.max_block_range last_processed_block
        (asU64 (max upper_bound_block 0))) chunks (.error (.error e)))
      (hlink : @Prog.Linked ChunkCalls Calls (fun c => ix.indexBlockRange lib c) chunks tr₂) :
      Reads last_processed_block (tr₁ ++ tr₂) ⟨some (asU64 (max upper_bound_block 0)), chunks⟩
        last_processed_block

/-- The loop of `start` from cursor 0. -/
inductive Started : List CycleRecord → Nat → Prop
  | boot : Started [] 0
  | cycle {rs : List CycleRecord} {last_processed_block new_block : Nat} {tr : Trace Calls}
      {r : CycleRecord} (h : Started rs last_processed_block)
      (hr : Reads lib ix last_processed_block tr r new_block) : Started (rs ++ [r]) new_block

variable {lib ix} {last_processed_block new_block : Nat} {tr : Trace Calls} {r : CycleRecord}
  {rs : List CycleRecord}

/-- Every run of a cycle can be read so, and nothing else can. -/
theorem runs_cycle_iff_reads :
    Prog.Runs (ix.cycle lib last_processed_block) tr (.ok new_block) ↔
      ∃ r, Reads lib ix last_processed_block tr r new_block := by
  refine Act.runs_attempt_andThen.trans ⟨?_, ?_⟩
  · rintro ⟨tr₁, (e | m) | upper_bound_block, tr₂, rfl, hres, hrest⟩
    · obtain ⟨rfl, heq⟩ := hrest
      cases heq
      rw [List.append_nil]
      exact ⟨_, .unresolved hres⟩
    · cases hrest.2
    · obtain ⟨tr₃, result, tr₄, rfl, hpoll, hend⟩ := Act.runs_attempt_andThen.mp hrest
      obtain ⟨chunks, hchunks, hlink⟩ := Prog.runs_interp.mp hpoll
      rcases result with (e | m) | new_block
      · obtain ⟨rfl, heq⟩ := hend
        cases heq
        rw [List.append_nil]
        exact ⟨_, .failed hres hchunks hlink⟩
      · cases hend.2
      · obtain ⟨rfl, heq⟩ := hend
        cases heq
        rw [List.append_nil]
        exact ⟨_, .advanced hres hchunks hlink⟩
  · rintro ⟨r, hr⟩
    cases hr with
    | unresolved hres =>
        exact ⟨_, _, [], (List.append_nil _).symm, hres, rfl, rfl⟩
    | @advanced tr₁ tr₂ upper_bound_block chunks _ hres hpoll hlink =>
        refine ⟨tr₁, _, tr₂, rfl, hres, Act.runs_attempt_andThen.mpr ?_⟩
        exact ⟨tr₂, _, [], (List.append_nil _).symm,
          Prog.runs_interp.mpr ⟨chunks, hpoll, hlink⟩, rfl, rfl⟩
    | @failed tr₁ tr₂ upper_bound_block chunks e hres hpoll hlink =>
        refine ⟨tr₁, _, tr₂, rfl, hres, Act.runs_attempt_andThen.mpr ?_⟩
        exact ⟨tr₂, _, [], (List.append_nil _).symm,
          Prog.runs_interp.mpr ⟨chunks, hpoll, hlink⟩, rfl, rfl⟩

/-! ## What one cycle covers -/

/-- The bound a cycle worked with; a cycle without one changes nothing. -/
def CycleRecord.upTo (r : CycleRecord) : Nat := r.bound.getD 0

/-- Some chunk of the cycle came through. -/
def CycleRecord.indexes (r : CycleRecord) : Bool := r.chunks.any fun e => e.ans matches .ok ()

theorem CycleRecord.indexes_iff {r : CycleRecord} :
    r.indexes = true ↔ ∃ c, ⟨c, .ok ()⟩ ∈ r.chunks := by
  simp only [indexes, List.any_eq_true]
  constructor
  · rintro ⟨⟨c, (e | a)⟩, hc, hok⟩
    · cases hok
    · exact ⟨c, hc⟩
  · rintro ⟨c, hc⟩
    exact ⟨_, hc, rfl⟩

/-- What a cycle did, in terms of the cursor before and after. -/
structure CycleRecord.Moves (r : CycleRecord) (last_processed_block new_block : Nat) : Prop where
  le : last_processed_block ≤ new_block
  bounded : new_block ≤ max last_processed_block r.upTo
  cold : last_processed_block = 0 → new_block ≠ 0 → r.bound = some new_block
  covers : ∀ n, Covers r.chunks n ↔
    (pollStart last_processed_block r.upTo).reached < n ∧ n ≤ new_block
  span : ∀ e ∈ r.chunks, e.op.from_block ≤ e.op.to_block

/-- **One cycle.** Whatever its outcome, the blocks it covered are those between
where it started and the cursor it left. -/
theorem Reads.moves (h : Reads lib ix last_processed_block tr r new_block) :
    r.Moves last_processed_block new_block := by
  have hpolled : ∀ (u : Int) (chunks : Trace ChunkCalls) (result),
      Prog.Runs (pollEvents ix.config.max_block_range last_processed_block (asU64 (max u 0)))
        chunks result →
      (chunking (asU64 (max u 0))).Allowed (pollStart last_processed_block (asU64 (max u 0)))
        chunks ∧ PollEnds last_processed_block (asU64 (max u 0)) ((chunking (asU64 (max u 0))).after
          (pollStart last_processed_block (asU64 (max u 0))) chunks) result :=
    fun u chunks result hpoll => Prog.Follows.of_runs
      (follows_pollEvents (asU64_le _) ix.config.max_block_range_pos) hpoll
      (Protocol.admitted_of_all _ (fun _ _ _ => trivial) _ _)
  cases h with
  | unresolved hres =>
      refine ⟨le_refl _, le_max_left _ _, fun h0 hn => absurd h0 hn, fun n => ?_, ?_⟩
      · constructor
        · rintro ⟨c, hc, -⟩
          cases hc
        · rintro ⟨hlo, hhi⟩
          simp only [pollStart, CycleRecord.upTo, Option.getD_none] at hlo
          split at hlo <;> omega
      · intro e he
        cases he
  | @advanced tr₁ tr₂ u chunks _ hres hpoll hlink =>
      obtain ⟨hallowed, rfl, hcold⟩ := hpolled u chunks _ hpoll
      obtain ⟨hlo, hhi⟩ := reached_le_after hallowed
      generalize asU64 (max u 0) = bound at *
      refine ⟨?_, ?_, ?_, fun n => covers_iff_of_allowed hallowed,
        fun e he => span_of_allowed hallowed he⟩
      · refine le_trans ?_ hlo
        simp only [pollStart]
        split <;> omega
      · refine le_trans hhi (max_le ?_ (le_max_right _ _))
        simp only [pollStart, CycleRecord.upTo, Option.getD_some]
        split <;> omega
      · intro h0 hn
        have hge := hcold h0
        simp only [pollStart, if_pos h0] at hhi hge ⊢
        exact congrArg some (by omega)
  | @failed tr₁ tr₂ u chunks e hres hpoll hlink =>
      obtain ⟨hallowed, hnone⟩ := hpolled u chunks _ hpoll
      generalize asU64 (max u 0) = bound at *
      refine ⟨le_refl _, le_max_left _ _, fun h0 hn => absurd h0 hn, fun n => ?_,
        fun e he => span_of_allowed hallowed he⟩
      apply (covers_iff_of_allowed hallowed).trans
      simp only [PollEnds] at hnone
      rw [hnone]
      simp only [pollStart, CycleRecord.upTo, Option.getD_some]
      split <;> omega

theorem CycleRecord.Moves.covers_of_indexes (h : r.Moves last_processed_block new_block)
    (hr : r.indexes = true) : ∃ n, Covers r.chunks n := by
  obtain ⟨c, hc⟩ := CycleRecord.indexes_iff.mp hr
  exact ⟨c.from_block, c, hc, le_refl _, h.span _ hc⟩

theorem CycleRecord.indexes_of_covers {n : Nat} (h : Covers r.chunks n) : r.indexes = true := by
  obtain ⟨c, hc, -⟩ := h
  exact CycleRecord.indexes_iff.mpr ⟨c, hc⟩

/-! ## Over runs of the loop -/

/-- The first positive bound of the run. -/
def firstBound (rs : List CycleRecord) : Option Nat :=
  (rs.filterMap CycleRecord.bound).find? (0 < ·)

/-- The bound of the first cycle in which a chunk came through. -/
def firstIndexed (rs : List CycleRecord) : Option Nat :=
  (rs.find? CycleRecord.indexes).bind CycleRecord.bound

def largestBound (rs : List CycleRecord) : Nat := (rs.map CycleRecord.upTo).foldr max 0

/-- Some cycle of the run covered the block. -/
def Covered (rs : List CycleRecord) (n : Nat) : Prop := ∃ r ∈ rs, Covers r.chunks n

theorem covered_append {n : Nat} : Covered (rs ++ [r]) n ↔ Covered rs n ∨ Covers r.chunks n := by
  simp [Covered, or_and_right, exists_or]

theorem largestBound_append : largestBound (rs ++ [r]) = max (largestBound rs) r.upTo := by
  induction rs with
  | nil => simp [largestBound]
  | cons d rs ih =>
      simp only [largestBound, List.cons_append, List.map_cons, List.foldr_cons] at ih ⊢
      rw [ih, max_assoc]

/-- What the cursor stands for: nothing while it is 0, and then the blocks from
the first bound that came through. -/
structure StandsFor (rs : List CycleRecord) (last_processed_block : Nat) : Prop where
  bounded : last_processed_block ≤ largestBound rs
  nothing : last_processed_block = 0 → ∀ r ∈ rs, r.indexes = false
  since : last_processed_block ≠ 0 → ∃ u, firstIndexed rs = some u ∧ u ≤ last_processed_block ∧
    ∀ n, Covered rs n ↔ u ≤ n ∧ n ≤ last_processed_block

theorem StandsFor.step (h : StandsFor rs last_processed_block)
    (hr : r.Moves last_processed_block new_block) : StandsFor (rs ++ [r]) new_block := by
  refine ⟨?_, ?_, ?_⟩
  · rw [largestBound_append]
    have hlast := h.bounded
    have hnew := hr.bounded
    omega
  · rintro rfl r' hr'
    have h0 : last_processed_block = 0 := Nat.le_zero.mp hr.le
    rcases List.mem_append.mp hr' with hr' | hr'
    · exact h.nothing h0 r' hr'
    · obtain rfl := List.mem_singleton.mp hr'
      by_contra hix
      obtain ⟨n, hn⟩ := hr.covers_of_indexes (Bool.not_eq_false _ ▸ hix)
      have := (hr.covers n).mp hn
      omega
  · intro hnew
    by_cases h0 : last_processed_block = 0
    · -- the first cycle in which a chunk came through
      have hbound := hr.cold h0 hnew
      have hcovers : ∀ n, Covers r.chunks n ↔ new_block ≤ n ∧ n ≤ new_block := by
        intro n
        rw [hr.covers n]
        simp only [pollStart, if_pos h0, CycleRecord.upTo, hbound, Option.getD_some]
        omega
      have hbefore : ∀ n, ¬ Covered rs n := by
        rintro n ⟨r', hr', hn⟩
        have := CycleRecord.indexes_of_covers hn
        rw [h.nothing h0 r' hr'] at this
        cases this
      have hix : r.indexes = true :=
        CycleRecord.indexes_of_covers ((hcovers new_block).mpr ⟨le_refl _, le_refl _⟩)
      have hfind : rs.find? CycleRecord.indexes = none := by
        rw [List.find?_eq_none]
        intro r' hr'
        rw [h.nothing h0 r' hr']
        exact Bool.false_ne_true
      refine ⟨new_block, ?_, le_refl _, fun n => ?_⟩
      · simp [firstIndexed, List.find?_append, hfind, hix, hbound]
      · rw [covered_append, or_iff_right (hbefore n), hcovers n]
    · obtain ⟨u, hu, hle, hcov⟩ := h.since h0
      refine ⟨u, ?_, le_trans hle hr.le, fun n => ?_⟩
      · obtain ⟨r', hfind, hbound⟩ := Option.bind_eq_some_iff.mp hu
        simp [firstIndexed, List.find?_append, hfind, hbound]
      · rw [covered_append, hcov n, hr.covers n]
        have := hr.le
        simp only [pollStart, if_neg h0]
        omega

theorem Started.standsFor (h : Started lib ix rs last_processed_block) :
    StandsFor rs last_processed_block := by
  induction h with
  | boot =>
      refine ⟨le_refl _, ?_, fun h => absurd rfl h⟩
      rintro - r hr
      cases hr
  | cycle _ hr ih => exact ih.step hr.moves

theorem largestBound_eq_zero (h : firstBound rs = none) : largestBound rs = 0 := by
  induction rs with
  | nil => rfl
  | cons r rs ih =>
      have hsplit : r.upTo = 0 ∧ firstBound rs = none := by
        cases hb : r.bound with
        | none => exact ⟨by simp [CycleRecord.upTo, hb], by simpa [firstBound, hb] using h⟩
        | some b =>
            simp only [firstBound, List.filterMap_cons, hb, List.find?_cons] at h
            split at h
            · cases h
            · rename_i hpos
              refine ⟨?_, h⟩
              simpa [CycleRecord.upTo, hb] using hpos
      rw [largestBound, List.map_cons, List.foldr_cons, hsplit.1]
      exact (Nat.zero_max _).trans (ih hsplit.2)

/-! ## Played cycles -/

/-- One cycle up to the given bound, its chunks answered under an oracle. -/
def playCycle (answer : Oracle World.any) (ix : EventIndexer)
    (last_processed_block upper_bound_block : Nat) :
    CycleRecord × Except (Exit BridgeValidatorError) Nat :=
  let out := @Prog.exec ChunkCalls _ Unit
    (fun _ c => ((Deployment.runAlone answer (ix.indexBlockRange Deployment.externals c)).2, ()))
    (pollEvents ix.config.max_block_range last_processed_block upper_bound_block) ()
  (⟨some upper_bound_block, out.1⟩, out.2.1)

theorem playCycle_runs (answer : Oracle World.any) (upper_bound_block : Nat) :
    Prog.Runs (pollEvents ix.config.max_block_range last_processed_block upper_bound_block)
        (playCycle answer ix last_processed_block upper_bound_block).1.chunks
        (playCycle answer ix last_processed_block upper_bound_block).2 ∧
      ∃ tr, @Prog.Linked ChunkCalls Calls
        (fun c => ix.indexBlockRange Deployment.externals c)
        (playCycle answer ix last_processed_block upper_bound_block).1.chunks tr := by
  refine ⟨Prog.exec_runs _ _ _, _, Prog.Linked.of_answered
    (fun c => (Deployment.runAlone answer (ix.indexBlockRange Deployment.externals c)).1) ?_⟩
  intro e he
  rw [Prog.ans_of_mem_exec he]
  exact Deployment.runAlone_runs _ _

theorem reads_playCycle (answer : Oracle World.any) (ix : EventIndexer)
    (last_processed_block : Nat) {u : Int}
    (hres : (Deployment.runAlone answer ix.resolveUpperBound).2 = .ok u) :
    (∀ n, (playCycle answer ix last_processed_block (asU64 (max u 0))).2 = .ok n → ∃ tr,
      Reads Deployment.externals ix last_processed_block tr
        (playCycle answer ix last_processed_block (asU64 (max u 0))).1 n) ∧
    ∀ e, (playCycle answer ix last_processed_block (asU64 (max u 0))).2 = .error (.error e) →
      ∃ tr, Reads Deployment.externals ix last_processed_block tr
        (playCycle answer ix last_processed_block (asU64 (max u 0))).1 last_processed_block := by
  obtain ⟨hpoll, tr₂, hlink⟩ := @playCycle_runs ix last_processed_block answer (asU64 (max u 0))
  have hruns := Deployment.runAlone_runs answer ix.resolveUpperBound
  rw [hres] at hruns
  constructor
  · intro n hn
    rw [hn] at hpoll
    exact ⟨_, .advanced hruns hpoll hlink⟩
  · intro e he
    rw [he] at hpoll
    exact ⟨_, .failed hruns hpoll hlink⟩

end EventIndexer

namespace Deployment

/-- The safe head of the chain, and what an `eth_getLogs` brings. -/
def safeHead (number : String) (logs : Except String (List RpcLog)) : Oracle World.any :=
  fun w r =>
    match r with
    | .ethGetBlockByNumber _ .safe => (elBlock number (.repeatByte 32 0xaa), ())
    | .getLogs .. => (logs, ())
    | r => lookups (.repeatByte 32 0xaa) w r

/-- The same, where logs can be had of ranges that begin at `reach` or before it only. -/
def safeHeadUntil (number : String) (reach : Nat) : Oracle World.any :=
  fun w r =>
    match r with
    | .getLogs _ filter => (if filter.from_block ≤ reach then .ok [] else .error "timeout", ())
    | r => safeHead number (.ok []) w r

def ambIndexer : EventIndexer := IndexerId.ETHAmb.indexer config

end Deployment

/-! ## Coverage -/

namespace EventIndexer

open Deployment

/-- **The cursor stands for everything from the first bound on iff the first
chunk that came through was asked for at that bound or below it.** It never
moves back, and never past the largest bound. -/
theorem covered_since_first_bound_iff (h : Started lib ix rs last_processed_block) :
    (0 < last_processed_block → ∃ u₀, firstBound rs = some u₀ ∧
      ((∀ n, u₀ ≤ n → n ≤ last_processed_block → Covered rs n) ↔
        ∃ u₁ ∈ firstIndexed rs, u₁ ≤ u₀)) ∧
    last_processed_block ≤ largestBound rs ∧
    ∀ tr r new_block, Reads lib ix last_processed_block tr r new_block →
      last_processed_block ≤ new_block := by
  have hstands := h.standsFor
  refine ⟨fun hpos => ?_, hstands.bounded, fun tr r new_block hr => hr.moves.le⟩
  obtain ⟨u₁, hu₁, hle, hcov⟩ := hstands.since (by omega)
  cases hu₀ : firstBound rs with
  | none =>
      have hlargest := largestBound_eq_zero hu₀
      have hbounded := hstands.bounded
      omega
  | some u₀ =>
      refine ⟨u₀, rfl, ?_, ?_⟩
      · intro hall
        refine ⟨u₁, hu₁, ?_⟩
        by_cases hreach : u₀ ≤ last_processed_block
        · exact ((hcov u₀).mp (hall u₀ (le_refl _) hreach)).1
        · omega
      · rintro ⟨u, hu, hbelow⟩ n hlo hhi
        obtain rfl : u₁ = u := Option.some.inj (hu₁.symm.trans hu)
        exact (hcov n).mpr ⟨by omega, hhi⟩

/-- Block 100 is safe in the first cycle, block 2600 in the two after it, and the second chunk
of the second cycle fails. -/
theorem covered_since_first_bound_iff_resumed :
    ∃ rs, Started externals ambIndexer rs 2600 ∧ firstBound rs = some 100 ∧
      (∃ r ∈ rs, ∃ c ∈ r.chunks, c.op = ⟨1101, 2100⟩ ∧ c.ans.isOk = false) ∧
      ∀ n, 100 ≤ n → n ≤ 2600 → Covered rs n := by
  have hres : (runAlone (safeHead "0x64" (.ok [])) ambIndexer.resolveUpperBound).2 = .ok 100 := by
    decide +kernel
  have hres' : ∀ reach ∈ [1100, 2600],
      (runAlone (safeHeadUntil "0xa28" reach) ambIndexer.resolveUpperBound).2 = .ok 2600 := by
    decide +kernel
  -- block 100 only, then up to 1100, then the rest
  obtain ⟨_, hr₁⟩ := (reads_playCycle _ ambIndexer 0 hres).1 100 (by decide +kernel)
  obtain ⟨_, hr₂⟩ := (reads_playCycle _ ambIndexer 100 (hres' 1100 (by simp))).1 1100
    (by decide +kernel)
  obtain ⟨_, hr₃⟩ := (reads_playCycle _ ambIndexer 1100 (hres' 2600 (by simp))).1 2600
    (by decide +kernel)
  have hrun : Started externals ambIndexer _ 2600 := ((Started.boot.cycle hr₁).cycle hr₂).cycle hr₃
  refine ⟨_, hrun, by decide +kernel, by decide +kernel, ?_⟩
  obtain ⟨u₀, hu₀, hiff⟩ := (covered_since_first_bound_iff hrun).1 (by decide)
  obtain rfl : 100 = u₀ := Option.some.inj (Eq.trans (by decide +kernel) hu₀)
  exact hiff.mpr ⟨100, by decide +kernel, le_refl _⟩

/-- Block 100 is the first bound, and its chunk fails; when block 110 is safe the
next cycle starts from there, and the cursor goes past block 100. -/
theorem first_bound_is_skipped :
    ¬ ∀ (lib : Externals) (ix : EventIndexer) (rs : List CycleRecord) (last : Nat),
      Started lib ix rs last → 0 < last → ∀ u₀ ∈ firstBound rs, ∀ n, u₀ ≤ n → n ≤ last →
      Covered rs n := by
  intro hclaim
  have hres : (runAlone (safeHead "0x64" (.error "timeout")) ambIndexer.resolveUpperBound).2 =
      .ok 100 := by decide +kernel
  have hres' : (runAlone (safeHead "0x6e" (.ok [])) ambIndexer.resolveUpperBound).2 =
      .ok 110 := by decide +kernel
  obtain ⟨tr, hr⟩ := (reads_playCycle _ ambIndexer 0 hres).2 (.Rpc "timeout") (by decide +kernel)
  obtain ⟨tr', hr'⟩ := (reads_playCycle _ ambIndexer 0 hres').1 110 (by decide +kernel)
  have hrun : Started externals ambIndexer _ 110 := (Started.boot.cycle hr).cycle hr'
  have hcovered := hclaim _ _ _ _ hrun (by decide) 100 (by decide +kernel) 100 (le_refl _)
    (by decide)
  -- what the cursor stands for begins at the bound of the second cycle
  obtain ⟨u, hu, -, hcov⟩ := hrun.standsFor.since (by decide)
  obtain rfl : 110 = u := Option.some.inj (Eq.trans (by decide +kernel) hu)
  have hbegins := ((hcov 100).mp hcovered).1
  omega

end EventIndexer

end BridgeValidator
