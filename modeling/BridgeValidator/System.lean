import BridgeValidator.Framework.Transition
import BridgeValidator.Service.EventIndexer
import BridgeValidator.Service.FcrChecker
import BridgeValidator.Service.OnChainSender
import Mathlib.Logic.Function.Basic

/-!
# The combined system

`main` joins eight services over one database and one channel. A state keeps,
for each service, the round of its loop that is in progress: the program that
is left of it and the calls it has made so far. One step is one answered call
of one service, so every interleaving of awaits is a run.

What lies outside (providers, chains, their clocks) is a `World`, and the
results quantify over it or fix one that says what is assumed of it.
-/

namespace BridgeValidator

open Interaction

/-! ## What the services share -/

/-- The outside: `rpc` says which answers a call may get and what it does out
there, `tick` what happens without us. -/
structure World where
  State : Type
  init : State → Prop
  rpc : State → (r : Rpc) → r.Ans → State → Prop
  tick : State → State → Prop

/-- The world in which any call may get any answer. -/
def World.any : World where
  State := Unit
  init _ := True
  rpc _ _ _ _ := True
  tick _ _ := True

structure Shared (W : World) where
  world : W.State
  db : Db
  channel : List SenderData

/-- `mpsc::channel::<SenderData>(32)`. -/
def channelCapacity : Nat := 32

variable {W : World}

/-- The answers a call may get, and what it leaves behind. A send waits for
room in the channel and fails, without effect, when the receiver is gone. -/
inductive Shared.Answers (sh : Shared W) : (o : Op) → o.Ans → Shared W → Prop
  | rpc {r x w} (h : W.rpc sh.world r x w) : Answers sh (.rpc r) x { sh with world := w }
  | db {st x db'} (h : sh.db.Answers st x db') : Answers sh (.db st) x { sh with db := db' }
  | sent {data} (h : sh.channel.length < channelCapacity) :
      Answers sh (.channelSend data) (.ok ()) { sh with channel := sh.channel ++ [data] }
  | closed {data e} : Answers sh (.channelSend data) (.error e) sh

/-! ## Services and their rounds -/

inductive IndexerId where
  | ETHAmb
  | GCAmb
  | ETHXdai
  | GCXdai
deriving DecidableEq, Repr

/-- The four indexers of `main`. -/
def IndexerId.indexer (cfg : Config) : IndexerId → EventIndexer
  | .ETHAmb => ⟨cfg, .eth, "UserRequestForAffirmation(bytes32,bytes)",
      cfg.eth_amb_bridge_address⟩
  | .GCAmb => ⟨cfg, .gc, "UserRequestForSignature(bytes32,bytes)",
      cfg.gc_amb_bridge_address⟩
  | .ETHXdai => ⟨cfg, .eth, "UserRequestForAffirmation(address,uint256,bytes32)",
      cfg.eth_xdai_bridge_address⟩
  | .GCXdai => ⟨cfg, .gc, "UserRequestForSignature(address,uint256,bytes32,address)",
      cfg.gc_xdai_bridge_address⟩

/-- The chain an indexer gets its logs from. -/
def IndexerId.chain : IndexerId → Chain
  | .ETHAmb => .eth
  | .GCAmb => .gc
  | .ETHXdai => .eth
  | .GCXdai => .gc

theorem IndexerId.provider_eq (i : IndexerId) (cfg : Config) :
    (i.indexer cfg).provider = i.chain := by
  cases i <;> rfl

inductive ProcessorId where
  | msg_processor_1
  | msg_processor_2
deriving DecidableEq, Repr

inductive Service where
  | indexer (i : IndexerId)
  | processor (k : ProcessorId)
  | on_chain_sender
  | fcr_checker
deriving DecidableEq, Repr

/-- One round of a service's loop. -/
inductive Job where
  | index (i : IndexerId) (last_processed_block : Nat)
  | process (k : ProcessorId)
  | send (data : SenderData)
  | check
deriving DecidableEq

namespace Job

def service : Job → Service
  | .index i _ => .indexer i
  | .process k => .processor k
  | .send _ => .on_chain_sender
  | .check => .fcr_checker

/-- The body of the loop; only an indexer's leaves something behind, its next
cursor. -/
def prog (lib : Externals) (cfg : Config) : Job → Action (Option Nat)
  | .index i last_processed_block => do
      return some (← (i.indexer cfg).cycle lib last_processed_block)
  | .process _ => do
      MessageProcessor.iteration lib cfg
      return none
  | .send data => do
      OnChainSender.handle lib cfg data
      return none
  | .check => do
      FcrChecker.cycle cfg
      return none

end Job

/-- A round in progress: the calls it has made and the program that is left. -/
structure Running where
  job : Job
  trace : Trace Calls
  rest : Action (Option Nat)

/-! ## States and steps -/

structure Sys (W : World) where
  config : Config
  shared : Shared W
  cursor : IndexerId → Nat
  running : Service → Option Running
  exited : Service → Bool
  shutdown : Bool

inductive Label where
  | start (job : Job)
  | call (service : Service) (event : Event Calls)
  | finish (service : Service)
  | exit (service : Service)
  | panic (service : Service)
  | signal
  | tick
  | restart (cfg : Config)

namespace Sys

/-- The process right after start-up. -/
def boot (cfg : Config) (db : Db) (world : W.State) : Sys W where
  config := cfg
  shared := { world, db, channel := [] }
  cursor _ := 0
  running _ := none
  exited _ := false
  shutdown := false

/-- The process is gone, and its connections with it: all services are polled
by one task, so a panic in one of them unwinds `main`. -/
def down (s : Sys W) : Sys W where
  config := s.config
  shared := { s.shared with db := { s.shared.db with tx := none }, channel := [] }
  cursor _ := 0
  running _ := none
  exited _ := true
  shutdown := s.shutdown

/-- Between two rounds, and still looping. -/
def idle (s : Sys W) (v : Service) : Prop := s.running v = none ∧ s.exited v = false

/-- A service leaves its loop on shutdown; the sender, when the channel is
closed and drained; the checker, also when there is nothing to check. -/
def mayExit (s : Sys W) : Service → Prop
  | .on_chain_sender => s.exited (.processor .msg_processor_1) = true ∧
      s.exited (.processor .msg_processor_2) = true ∧ s.shared.channel = []
  | .fcr_checker => s.shutdown = true ∨ s.config.fcrChains = []
  | _ => s.shutdown = true

/-- Enter a round. -/
def begin (lib : Externals) (s : Sys W) (job : Job) : Sys W :=
  let r : Running := { job, trace := [], rest := job.prog lib s.config }
  { s with running := Function.update s.running job.service (some r) }

/-- One call of a round has been answered. -/
def advance (s : Sys W) (v : Service) (r : Running) (e : Event Calls)
    (rest : Action (Option Nat)) (sh : Shared W) : Sys W :=
  let r' : Running := { job := r.job, trace := r.trace ++ [e], rest }
  { s with shared := sh, running := Function.update s.running v (some r') }

/-- A round is over. -/
def done (s : Sys W) (v : Service) (job : Job) (result : Option Nat) : Sys W :=
  { s with running := Function.update s.running v none
           cursor := match job, result with
             | .index i _, some n => Function.update s.cursor i n
             | _, _ => s.cursor }

def popChannel (s : Sys W) : Sys W :=
  { s with shared := { s.shared with channel := s.shared.channel.tail } }

inductive Step (lib : Externals) (s : Sys W) : Label → Sys W → Prop
  | index {i} (hidle : s.idle (.indexer i)) :
      Step lib s (.start (.index i (s.cursor i))) (s.begin lib (.index i (s.cursor i)))
  | process {k} (hidle : s.idle (.processor k)) (hsd : s.shutdown = false) :
      Step lib s (.start (.process k)) (s.begin lib (.process k))
  | recv {data rest} (hidle : s.idle .on_chain_sender) (hch : s.shared.channel = data :: rest) :
      Step lib s (.start (.send data)) (s.popChannel.begin lib (.send data))
  | check (hidle : s.idle .fcr_checker) (hfcr : s.config.fcrChains ≠ []) :
      Step lib s (.start .check) (s.begin lib .check)
  | call {v r o k x sh} (hr : s.running v = some r) (hrest : r.rest = Prog.call o k)
      (hans : s.shared.Answers o x sh) :
      Step lib s (.call v ⟨o, x⟩) (s.advance v r ⟨o, x⟩ (k x) sh)
  | finish {v r result} (hr : s.running v = some r) (hrest : r.rest = Prog.pure (.ok result)) :
      Step lib s (.finish v) (s.done v r.job result)
  | panic {v r msg} (hr : s.running v = some r)
      (hrest : r.rest = Prog.pure (.error (.panic msg))) :
      Step lib s (.panic v) s.down
  | exit {v} (hidle : s.idle v) (hexit : s.mayExit v) :
      Step lib s (.exit v) { s with exited := Function.update s.exited v true }
  | signal : Step lib s .signal { s with shutdown := true }
  | tick {w} (h : W.tick s.shared.world w) :
      Step lib s .tick { s with shared := { s.shared with world := w } }
  | restart {cfg} :
      Step lib s (.restart cfg) (boot cfg { s.shared.db with tx := none } s.shared.world)

end Sys

/-- The system as a transition system: it boots over an empty database. -/
def system (lib : Externals) (W : World) : Machine (Sys W) Label where
  init s := ∃ cfg w, W.init w ∧ s = Sys.boot cfg Db.empty w
  step s l t := s.Step lib l t

/-- The process ends. -/
def Label.ends : Label → Bool
  | .panic _ => true
  | .restart _ => true
  | _ => false

def Label.isRestart : Label → Bool
  | .restart _ => true
  | _ => false

theorem Label.isRestart_of_ends {l : Label} (h : l.ends = false) : l.isRestart = false := by
  cases l <;> first | rfl | cases h

/-- The system between two restarts. -/
def uninterrupted (lib : Externals) (W : World) : Machine (Sys W) Label :=
  (system lib W).guarded fun _ l _ => l.isRestart = false

/-! ## What is known of a round in progress -/

/-- The round a service is in is its own, and its trace leads from the loop's
body to what is left. -/
def Sys.Coherent (lib : Externals) (s : Sys W) : Prop :=
  ∀ v r, s.running v = some r →
    r.job.service = v ∧ (r.job.prog lib s.config).Steps r.trace r.rest

namespace Sys

variable {lib : Externals} {s t : Sys W} {l : Label}

theorem running_begin {job : Job} {v : Service} (hv : v ≠ job.service) :
    (s.begin lib job).running v = s.running v := Function.update_of_ne hv _ _

theorem running_advance {v v' : Service} {r : Running} {e : Event Calls}
    {rest : Action (Option Nat)} {sh : Shared W} (hv : v' ≠ v) :
    (s.advance v r e rest sh).running v' = s.running v' := Function.update_of_ne hv _ _

theorem running_advance_self {v : Service} {r : Running} {e : Event Calls}
    {rest : Action (Option Nat)} {sh : Shared W} :
    (s.advance v r e rest sh).running v = some ⟨r.job, r.trace ++ [e], rest⟩ :=
  Function.update_self v _ _

theorem running_done {v v' : Service} {job : Job} {result : Option Nat} (hv : v' ≠ v) :
    (s.done v job result).running v' = s.running v' := Function.update_of_ne hv _ _

/-- The round a service is in is the one it was in, one that has just begun, or the one
it was in with one more call. -/
theorem Step.round (h : s.Step lib l t) {v : Service} {r' : Running}
    (hr' : t.running v = some r') :
    s.running v = some r' ∨ (l = .start r'.job ∧ r'.job.service = v ∧ r'.trace = []) ∨
    ∃ r o x sh, s.running v = some r ∧ l = .call v ⟨o, x⟩ ∧ s.shared.Answers o x sh ∧
      r'.job = r.job ∧ r'.trace = r.trace ++ [⟨o, x⟩] := by
  have hstart : ∀ job : Job, (s.begin lib job).running v = some r' →
      s.running v = some r' ∨
        (Label.start job = .start r'.job ∧ r'.job.service = v ∧ r'.trace = []) := by
    intro job hr'
    by_cases hv : v = job.service
    · subst hv
      simp only [Sys.begin, Function.update_self, Option.some.injEq] at hr'
      subst hr'
      exact Or.inr ⟨rfl, rfl, rfl⟩
    · exact Or.inl ((running_begin hv).symm.trans hr')
  cases h with
  | index _ => exact (hstart _ hr').imp_right Or.inl
  | process _ _ => exact (hstart _ hr').imp_right Or.inl
  | recv _ _ => exact (hstart _ hr').imp_right Or.inl
  | check _ _ => exact (hstart _ hr').imp_right Or.inl
  | @call v' r o k x sh hr hrest hans =>
      by_cases hv : v = v'
      · subst hv
        obtain rfl := Option.some.inj (running_advance_self.symm.trans hr')
        exact Or.inr (Or.inr ⟨r, o, x, sh, hr, rfl, hans, rfl, rfl⟩)
      · exact Or.inl ((running_advance hv).symm.trans hr')
  | @finish v' r result hr hrest =>
      by_cases hv : v = v'
      · subst hv
        simp [Sys.done] at hr'
      · exact Or.inl ((running_done hv).symm.trans hr')
  | panic _ _ => cases hr'
  | exit _ _ => exact Or.inl hr'
  | signal => exact Or.inl hr'
  | tick _ => exact Or.inl hr'
  | restart => cases hr'

theorem Step.config_eq (h : s.Step lib l t) (hl : l.isRestart = false) :
    t.config = s.config := by
  cases h with
  | restart => cases hl
  | _ => rfl

theorem cursor_done {v : Service} {job : Job} {result : Option Nat} {i : IndexerId}
    (hservice : job.service = v) (hv : v ≠ .indexer i) :
    (s.done v job result).cursor i = s.cursor i := by
  cases job with
  | index j last_processed_block =>
      have hij : i ≠ j := by
        rintro rfl
        exact hv hservice.symm
      cases result with
      | none => rfl
      | some n => exact Function.update_of_ne hij _ _
  | _ => rfl

theorem coherent_boot {cfg : Config} {db : Db} {w : W.State} :
    (boot cfg db w).Coherent lib := by
  intro v r h
  cases h

theorem Coherent.begin (hs : s.Coherent lib) (job : Job) : (s.begin lib job).Coherent lib := by
  intro v r h
  by_cases hv : v = job.service
  · subst hv
    simp only [Sys.begin, Function.update_self, Option.some.injEq] at h
    subst h
    exact ⟨rfl, .refl⟩
  · simp only [Sys.begin, Function.update_of_ne hv] at h
    exact hs v r h

theorem Coherent.advance (hs : s.Coherent lib) {v : Service} {r : Running} {o : Op}
    {k : o.Ans → Prog Calls (Except (Exit BridgeValidatorError) (Option Nat))}
    (hr : s.running v = some r) (hrest : r.rest = Prog.call o k) (x : o.Ans) (sh : Shared W) :
    (s.advance v r ⟨o, x⟩ (k x) sh).Coherent lib := by
  obtain ⟨hv, hsteps⟩ := hs v r hr
  intro v' r' h
  by_cases hv' : v' = v
  · subst hv'
    simp only [Sys.advance, Function.update_self, Option.some.injEq] at h
    subst h
    rw [hrest] at hsteps
    exact ⟨hv, @Prog.Steps.snoc Calls _ _ _ o k hsteps x⟩
  · simp only [Sys.advance, Function.update_of_ne hv'] at h
    exact hs v' r' h

theorem Coherent.done (hs : s.Coherent lib) (v : Service) (job : Job) (n : Option Nat) :
    (s.done v job n).Coherent lib := by
  intro v' r h
  by_cases hv' : v' = v
  · subst hv'
    simp [Sys.done] at h
  · simp only [Sys.done, Function.update_of_ne hv'] at h
    exact hs v' r h

theorem Coherent.step (hs : s.Coherent lib) (h : s.Step lib l t) : t.Coherent lib := by
  cases h with
  | index _ => exact hs.begin _
  | process _ _ => exact hs.begin _
  | recv _ _ => exact Coherent.begin (s := s.popChannel) hs _
  | check _ _ => exact hs.begin _
  | call hr hrest _ => exact hs.advance hr hrest _ _
  | finish _ _ => exact hs.done _ _ _
  | panic _ _ => intro v r h; cases h
  | exit _ _ => exact hs
  | signal => exact hs
  | tick _ => exact hs
  | restart => exact coherent_boot

end Sys

/-- **Every round in progress is a partial run of its own loop body.** -/
theorem coherent_of_reachable {lib : Externals} {s : Sys W}
    (h : (system lib W).Reachable s) : s.Coherent lib := by
  refine h.invariant ?_ ?_
  · rintro s ⟨cfg, w, -, rfl⟩
    exact Sys.coherent_boot
  · intro s l t _ hs hstep
    exact hs.step hstep

/-- A round of an indexer works on from its cursor. -/
def Sys.AtCursor (s : Sys W) : Prop :=
  ∀ i r, s.running (.indexer i) = some r → r.job = .index i (s.cursor i)

/-- Rounds of an indexer start at its cursor, which they leave alone. -/
theorem Sys.AtCursor.step {lib : Externals} {s t : Sys W} {l : Label} (h : s.AtCursor)
    (hs : s.Coherent lib) (hstep : s.Step lib l t) : t.AtCursor := by
  intro i r' hr'
  -- while a round is going on, nobody moves the cursor
  have hcursor : t.cursor i = s.cursor i := by
    cases hstep with
    | @finish v r result hr hrest =>
        by_cases hv : v = .indexer i
        · subst hv
          simp [Sys.done] at hr'
        · exact cursor_done (hs v r hr).1 hv
    | panic _ _ => cases hr'
    | restart => cases hr'
    | _ => rfl
  rw [hcursor]
  rcases hstep.round hr' with hr | ⟨hl, hservice, -⟩ | ⟨r, o, x, sh, hr, -, -, hjob, -⟩
  · exact h i r' hr
  · cases hstep with
    | index hidle =>
        have hjob := Label.start.inj hl
        rw [← hjob] at hservice ⊢
        cases hservice
        rfl
    | process _ _ | recv _ _ | check _ _ =>
        have hjob := Label.start.inj hl
        rw [← hjob] at hservice
        cases hservice
    | _ => cases hl
  · exact hjob.trans (h i r hr)

/-- The calls of the rounds in progress are among the labels of the run. -/
theorem call_mem_labels {lib : Externals} {s t : Sys W} {ls : List Label}
    (hrun : (system lib W).Run s ls t) (hs : ∀ v, s.running v = none) {v : Service}
    {r : Running} (hr : t.running v = some r) : ∀ e ∈ r.trace, .call v e ∈ ls := by
  induction hrun generalizing v r with
  | nil =>
      rw [hs v] at hr
      cases hr
  | @snoc ls t l u _ hstep ih =>
      rcases hstep.round hr with hr | ⟨-, -, hnil⟩ | ⟨r', o, x, sh, hr', rfl, -, -, htrace⟩
      · intro e he
        exact List.mem_append_left _ (ih hr e he)
      · intro e he
        rw [hnil] at he
        cases he
      · intro e he
        rw [htrace] at he
        rcases List.mem_append.mp he with he | he
        · exact List.mem_append_left _ (ih hr' e he)
        · rw [List.mem_singleton.mp he]
          exact List.mem_append_right _ (List.mem_singleton_self _)

end BridgeValidator
