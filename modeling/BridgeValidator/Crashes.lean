import BridgeValidator.AuditTrail
import BridgeValidator.Chunks
import BridgeValidator.Orphans
import BridgeValidator.Progress
import BridgeValidator.SignatureCount

/-!
# What takes the process down

All services are polled by one task, so a panic in any of them ends the process and loses
every claim. Of all rounds only the sender's can end in one, and only right after it has been
handed a blob for a number of signatures whose length it cannot compute.
-/

namespace BridgeValidator

open Interaction

variable {W : World} {lib : Externals} {cfg : Config}

theorem anyCall_ignoresLookups : IgnoresLookups anyCall where
  beacon _ _ := ⟨trivial, fun _ => rfl⟩
  el _ _ _ := ⟨trivial, fun _ => rfl⟩

/-! ## Indexers -/

namespace EventIndexer

variable {ix : EventIndexer}

theorem quiet_indexBlockRange (c : Chunk) :
    Act.Follows anyCall () (ix.indexBlockRange lib c) (Quiet ()) := by
  refine Act.follows_bind.mpr (follows_await.mpr ⟨trivial, ?_⟩)
  rintro (e | logs) -
  · rfl
  · refine Act.follows_bind.mpr (follows_orErr.mpr ⟨?_, fun e he => by cases he⟩)
    rintro _ ⟨⟩
    exact inserts_storeLogs logs (fun _ _ _ _ _ _ _ _ => trivial) fun _ _ => rfl

/-- The arithmetic of a poll does not overflow, so it panics only where a chunk does. -/
theorem quiet_pollAndIndex {last_processed_block upper_bound_block : Nat}
    (hb : upper_bound_block ≤ u64Max) :
    Act.Follows anyCall () (ix.pollAndIndex lib last_processed_block upper_bound_block)
      (Quiet ()) := by
  refine Prog.follows_interp (R := fun p _ => ∀ m, p.outcome ≠ .error (.panic m))
    (fun p g c hp _ => ?_) (fun p g r hp hret => ?_)
    (polls_pollEvents hb ix.config.max_block_range_pos) (fun m hm => by cases hm)
  · apply (quiet_indexBlockRange c).mono
    rintro _ ((e | m) | a) h
    · exact ⟨trivial, fun m hm => by cases hm⟩
    · exact h.elim
    · exact ⟨trivial, fun m hm => by cases hm⟩
  · obtain ⟨reached, (e | m) | _⟩ := p
    · obtain rfl := hret.2
      split <;> rfl
    · exact absurd rfl (hp m)
    · obtain rfl := hret.2.2
      rfl

theorem quiet_cycle (last_processed_block : Nat) :
    Act.Follows anyCall () (ix.cycle lib last_processed_block) (Quiet ()) := by
  refine Act.follows_bind.mpr (Act.follows_attempt.mpr
    ((follows_resolveUpperBound (anyCall_ignoresLookups.at _ _)).mono ?_))
  rintro _ ((e | m) | upper_bound_block) h
  · rfl
  · exact h.elim
  · refine Act.follows_bind.mpr (Act.follows_attempt.mpr
      ((quiet_pollAndIndex (asU64_le _)).mono ?_))
    rintro _ ((e | m) | new_block) h
    · rfl
    · exact h.elim
    · rfl

end EventIndexer

/-! ## Processors -/

namespace MessageProcessor

variable {row : EventLogRow}

theorem quiet_handOver {calldata : OnChainCallData} :
    Act.Follows anyCall () (handOver row calldata) (Quiet ()) := by
  simp only [handOver, Act.follows_bind, follows_await, follows_orErr]
  exact ⟨trivial, fun _ _ => ⟨fun _ _ => rfl, fun _ _ => rfl⟩⟩

theorem quiet_processMessageOrSkip :
    Act.Follows anyCall () (processMessageOrSkip lib cfg row) (Quiet ()) := by
  have herror : ∀ e, Quiet () () (Except.error (Exit.error e) :
      Except (Exit BridgeValidatorError) Unit) := fun _ => rfl
  simp only [processMessageOrSkip, Act.follows_bind, follows_orErr, herror, implies_true, and_true]
  intro log _
  split <;> simp only [Act.follows_bind, follows_orErr, Act.follows_orThrow, follows_loadSigner,
    Act.follows_pure, herror, implies_true, and_true, quiet_handOver]
  rfl

theorem quiet_iteration : Act.Follows anyCall () (iteration lib cfg) (Quiet ()) := by
  simp only [iteration, readFromDb, Act.follows_bind, Act.follows_attempt, follows_sql]
  refine ⟨trivial, ?_, fun _ _ => rfl⟩
  rintro (_ | row) -
  · rfl
  · refine Act.follows_bind.mpr (Act.follows_attempt.mpr (quiet_processMessageOrSkip.mono ?_))
    rintro _ ((e | m) | a) h
    · rfl
    · exact h.elim
    · rfl

end MessageProcessor

/-! ## Rounds -/

/-- A quiet program does not unwind, whatever else its protocol is about. -/
theorem not_runs_panic {σ α : Type} {P : Protocol Calls σ} {g g' : σ} {p : Action α}
    (h : Act.Follows P g p (Quiet g')) (hP : ∀ g o x, P.admits g o x) {tr : Trace Calls}
    {m : String} : ¬p.Runs tr (.error (.panic m)) := by
  intro hrun
  exact (Prog.Follows.of_runs h hrun (P.admitted_of_all hP _ _)).2

/-- What a loop leaves behind does not matter for how its body ends. -/
theorem runs_panic_of_andReturn {α β : Type} {p : Action α} {f : α → β} {tr : Trace Calls}
    {m : String} (h : (do return f (← p) : Action β).Runs tr (.error (.panic m))) :
    p.Runs tr (.error (.panic m)) := by
  obtain ⟨tr₁, (e | m') | a, tr₂, rfl, hp, hrest⟩ := Prog.runs_bind.mp h
  · cases hrest.2
  · obtain ⟨rfl, heq⟩ := hrest
    cases heq
    rwa [List.append_nil]
  · cases hrest.2

/-- Rounds of the indexers, the processors and the checker do not unwind. -/
theorem Job.sends_of_panic {job : Job} {tr : Trace Calls} {m : String}
    (h : (job.prog lib cfg).Runs tr (.error (.panic m))) : ∃ data, job = .send data := by
  cases job with
  | index i last_processed_block =>
      exact absurd (runs_panic_of_andReturn h)
        (not_runs_panic (EventIndexer.quiet_cycle _) fun _ _ _ => trivial)
  | process k =>
      exact absurd (runs_panic_of_andReturn h)
        (not_runs_panic MessageProcessor.quiet_iteration fun _ _ _ => trivial)
  | send data => exact ⟨data, rfl⟩
  | check =>
      exact absurd (runs_panic_of_andReturn h)
        (not_runs_panic FcrChecker.auditing_cycle fun _ _ _ => trivial)

/-- A round of the sender unwinds right after a blob, for a number it cannot represent. -/
theorem OnChainSender.counts_of_panic {data : SenderData} {tr : Trace Calls} {m : String}
    (h : (handle lib cfg data).Runs tr (.error (.panic m))) :
    ∃ seen e required signatures, tr = seen ++ [e] ∧ Counts required signatures seen e ∧
      ¬Representable required := by
  obtain ⟨hallow, hends, -⟩ := Prog.Follows.of_runs counting_handle h
    (Protocol.admitted_of_all _ (fun _ _ _ => trivial) _ _)
  obtain ⟨required, signatures, hphase, hnot⟩ := hends.counted m rfl
  obtain ⟨seen, e, htrace, hcounts⟩ := counts_of_counted hallow hphase
  exact ⟨seen, e, required, signatures, htrace, hcounts, hnot⟩

/-- **Who takes the process down.** A panic is the sender's: the helper has just handed it
a blob, and the number of signatures it was told to expect has no length. Every row that
is claimed at that moment is lost with the process, the sender's own and the others: in
whatever way processes are started and go on, nobody has to do with it any more. -/
theorem only_the_sender_panics {s t : Sys W} {v : Service} (h : (system lib W).Reachable s)
    (hstep : s.Step lib (.panic v) t) :
    (∃ r data seen e required signatures, v = .on_chain_sender ∧ s.running v = some r ∧
      r.job = .send data ∧ r.trace = seen ++ [e] ∧
      OnChainSender.Counts required signatures seen e ∧
      ¬OnChainSender.Representable required) ∧
    ∀ id r, s.row? id = some r → r.is_processed = some true →
      ∀ ls u, (system lib W).Run t ls u → u.Orphaned id ∧
        (∃ r', u.row? id = some r' ∧ r.Agrees r') ∧ ∀ l ∈ ls, l.concerns id = false := by
  constructor
  · cases hstep with
    | @panic _ r m hr hrest =>
        obtain ⟨hservice, hsteps⟩ := coherent_of_reachable h v r hr
        rw [hrest] at hsteps
        obtain ⟨data, hjob⟩ := Job.sends_of_panic hsteps.runs
        rw [hjob] at hservice hsteps
        -- it is the sender's, so its last call is a blob for a number without a length
        obtain ⟨seen, e, required, signatures, htrace, hcounts, hnot⟩ :=
          OnChainSender.counts_of_panic (runs_panic_of_andReturn hsteps.runs)
        exact ⟨r, data, seen, e, required, signatures, hservice.symm, hr, hjob, htrace, hcounts,
          hnot⟩
  · intro id r hr hclaimed ls u hrun
    obtain ⟨horphan, hr'⟩ := Sys.orphaned_of_ends hstep rfl hr hclaimed
    exact horphan.run (h.step hstep) hr' hrun

/-! ### A number that is too large -/

namespace Deployment

/-- The bridge says that 2 ^ 64 signatures are required. -/
def overflowing : Oracle World.any := fun w r =>
  match r with
  | .view (.requiredSignatures ..) => (.ok 18446744073709551616, w)
  | .getLogs chain filter => lookups (.repeatByte 32 0xbb) w (.getLogs chain filter)
  | .ethGetBlockByNumber url tag => lookups (.repeatByte 32 0xbb) w (.ethGetBlockByNumber url tag)
  | r => relay true w r

/-- A message from Gnosis is indexed, claimed and handed over, and its pass gets its blob. -/
def countedBlob : List Service :=
  List.replicate 6 (.indexer .GCAmb) ++ List.replicate 4 (.processor .msg_processor_1) ++
    List.replicate 9 .on_chain_sender

end Deployment

/-- The sender's round has come to a panic. -/
def Sys.atPanic (s : Sys W) : Bool :=
  match s.running .on_chain_sender with
  | some ⟨_, _, .pure (.error (.panic _))⟩ => true
  | _ => false

/-- The row of the message is lost with the process, and the next one polls in vain. -/
theorem only_the_sender_panics_overflowing :
    ∃ (s t u : Sys World.any) (v : Service) (ls : List Label),
      (system Deployment.externals World.any).Reachable s ∧
      s.Step Deployment.externals (.panic v) t ∧ v = .on_chain_sender ∧
      (system Deployment.externals World.any).Run t ls u ∧
      (∃ l ∈ ls, l.claimsNone = true) ∧ u.Orphaned 1 ∧ ∀ l ∈ ls, l.concerns 1 = false := by
  let again (s : Sys World.any) : Sys World.any :=
    Sys.boot Deployment.config { s.down.shared.db with tx := none } s.down.shared.world
  obtain ⟨ls, s, hrun, hp⟩ := Sys.exists_of_playSchedule
    (s := Sys.boot Deployment.config Db.empty ()) Deployment.countedBlob
    (fun q => q.2.atPanic && (q.2.row? 1).any (fun r => r.is_processed == some true) &&
      (Turn.playAll Deployment.externals (again q.2)
        [.process .msg_processor_1 Deployment.overflowing]).any fun p =>
          p.1.any Label.claimsNone)
    (World.any_truthful Deployment.overflowing)
    (show (Sys.playSchedule Deployment.externals _ _ _).any _ = true by decide +kernel)
  rw [Bool.and_eq_true, Bool.and_eq_true] at hp
  obtain ⟨⟨hpanic, hp⟩, hpoll⟩ := hp
  simp only [Option.any_eq_true, beq_iff_eq] at hp
  obtain ⟨r, hr, hclaimed⟩ := hp
  obtain ⟨ls', u, hrun', -, hnone⟩ := Turn.exists_of_playAll _ _ Turn.sound_any
    (Sys.resting_boot : (again s).Resting) hpoll
  simp only [Sys.atPanic] at hpanic
  split at hpanic
  · rename_i job trace m hrunning
    have hreach : (system Deployment.externals World.any).Reachable s :=
      ⟨_, ls, ⟨Deployment.config, (), trivial, rfl⟩, hrun⟩
    have hstep : s.Step Deployment.externals (.panic .on_chain_sender) s.down :=
      .panic hrunning rfl
    have hrestart : (system Deployment.externals World.any).Run s.down
        [.restart Deployment.config] (again s) := .single .restart
    have hlater := hrestart.append hrun'
    obtain ⟨-, horphaned⟩ := only_the_sender_panics hreach hstep
    obtain ⟨hlost, -, hls⟩ := horphaned 1 r hr hclaimed _ u hlater
    obtain ⟨l, hl, hlnone⟩ := List.any_eq_true.mp hnone
    exact ⟨s, _, u, _, _, hreach, hstep, rfl, hlater,
      ⟨l, List.mem_append_right _ hl, hlnone⟩, hlost, hls⟩
  · cases hpanic

end BridgeValidator
