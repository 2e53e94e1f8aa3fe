import BridgeValidator.System

/-!
# Whole rounds

A round of an idle service, played to its end under a strategy that answers
its calls, is a run of the system. Concrete histories are put together from
such rounds; playing them evaluates the programs, and checks a condition on
every step if there is one.
-/

namespace BridgeValidator

open Interaction

variable {W : World} {lib : Externals}

/-- A strategy for the calls that leave the process. -/
abbrev Oracle (W : World) : Type := W.State → (r : Rpc) → r.Ans × W.State

def Oracle.Truthful (answer : Oracle W) : Prop :=
  ∀ w r, W.rpc w r (answer w r).1 (answer w r).2

/-- Statements are executed, messages queued, RPC is left to the oracle. -/
def Shared.handle (answer : Oracle W) (sh : Shared W) : (o : Op) → o.Ans × Shared W
  | .rpc r => ((answer sh.world r).1, { sh with world := (answer sh.world r).2 })
  | .db st =>
      if sh.db.isBlocked st then (.error "canceling statement due to lock timeout", sh)
      else ((sh.db.exec (fun _ => false) st).1,
        { sh with db := (sh.db.exec (fun _ => false) st).2 })
  | .channelSend data =>
      if sh.channel.length < channelCapacity then
        (.ok (), { sh with channel := sh.channel ++ [data] })
      else (.error "channel closed", sh)

theorem Db.mayFail_of_isBlocked {db : Db} {st : Stmt} (h : db.isBlocked st = true) :
    st.mayFail = true := by
  cases st <;> first | rfl | exact Bool.noConfusion h

theorem World.any_truthful (answer : Oracle World.any) : answer.Truthful := fun _ _ => trivial

theorem Shared.handle_answers {answer : Oracle W} (h : answer.Truthful) (sh : Shared W)
    (o : Op) : sh.Answers o (sh.handle answer o).1 (sh.handle answer o).2 := by
  cases o with
  | rpc r => exact .rpc (h sh.world r)
  | db st =>
      simp only [Shared.handle]
      split
      · rename_i hb
        exact .db (Or.inr ⟨Db.mayFail_of_isBlocked hb, rfl, _, rfl⟩)
      · rename_i hb
        exact .db (Or.inl ⟨Bool.eq_false_iff.mpr hb, _, rfl⟩)
  | channelSend data =>
      simp only [Shared.handle]
      split
      · exact .sent ‹_›
      · exact .closed

/-! ## Histories made of rounds -/

namespace Sys

/-- Nothing is in progress and nobody has stopped. -/
structure Resting (s : Sys W) : Prop where
  running : ∀ v, s.running v = none
  exited : ∀ v, s.exited v = false
  shutdown : s.shutdown = false

theorem Resting.idle {s : Sys W} (h : s.Resting) (v : Service) : s.idle v :=
  ⟨h.running v, h.exited v⟩

theorem resting_boot {cfg : Config} {db : Db} {w : W.State} : (boot cfg db w).Resting :=
  ⟨fun _ => rfl, fun _ => rfl, rfl⟩

section

variable (lib) (G : Sys W → Label → Sys W → Prop) [∀ s l t, Decidable (G s l t)]

/-- Play a round to its end, if it returns and every step meets the condition. -/
def playCalls (answer : Oracle W) (v : Service) :
    Prog Calls (Except (Exit BridgeValidatorError) (Option Nat)) → Sys W → Running →
      Option (List Label × Sys W)
  | .pure (.ok result), s, r =>
      let t := s.done v r.job result
      if G s (.finish v) t then some ([.finish v], t) else none
  | .pure (.error _), _, _ => none
  | .call o k, s, r =>
      let x := (s.shared.handle answer o).1
      let r' : Running := ⟨r.job, r.trace ++ [⟨o, x⟩], k x⟩
      let t := s.advance v r ⟨o, x⟩ (k x) (s.shared.handle answer o).2
      if G s (.call v ⟨o, x⟩) t then
        (playCalls answer v (k x) t r').map fun q => (.call v ⟨o, x⟩ :: q.1, q.2)
      else none

/-- The round is entered from `s₀` and begins in `s`. -/
def playRound (answer : Oracle W) (s₀ s : Sys W) (job : Job) : Option (List Label × Sys W) :=
  let r : Running := ⟨job, [], job.prog lib s.config⟩
  if G s₀ (.start job) (s.begin lib job) then
    (playCalls G answer job.service r.rest (s.begin lib job) r).map fun q =>
      (.start job :: q.1, q.2)
  else none

end

variable {G : Sys W → Label → Sys W → Prop} [∀ s l t, Decidable (G s l t)] {s t : Sys W}
  {ls : List Label}

theorem run_playCalls {answer : Oracle W} (h : answer.Truthful) {v : Service}
    {p : Prog Calls (Except (Exit BridgeValidatorError) (Option Nat))} {r : Running}
    (hr : s.running v = some r) (hrest : r.rest = p)
    (hothers : ∀ v', v' ≠ v → s.running v' = none) (hexited : ∀ v', s.exited v' = false)
    (hshutdown : s.shutdown = false) (hp : playCalls G answer v p s r = some (ls, t)) :
    ((system lib W).guarded G).Run s ls t ∧ t.Resting := by
  induction p generalizing s r ls with
  | pure a =>
      cases a with
      | error e => cases hp
      | ok result =>
          simp only [playCalls, Option.ite_none_right_eq_some, Option.some.injEq,
            Prod.mk.injEq] at hp
          obtain ⟨hG, rfl, rfl⟩ := hp
          refine ⟨.single ⟨.finish hr hrest, hG⟩, fun v' => ?_, hexited, hshutdown⟩
          by_cases hv : v' = v
          · simp [done, hv]
          · simp [done, Function.update_of_ne hv, hothers v' hv]
  | call o k ih =>
      simp only [playCalls, Option.ite_none_right_eq_some, Option.map_eq_some_iff] at hp
      obtain ⟨hG, ⟨ls', t'⟩, hplay, heq⟩ := hp
      obtain ⟨rfl, rfl⟩ := Prod.mk.inj heq
      have hstep : (system lib W).step s (.call v ⟨o, (s.shared.handle answer o).1⟩) _ :=
        Step.call hr hrest (s.shared.handle_answers h o)
      have hnext := ih _ (s := s.advance v r ⟨o, (s.shared.handle answer o).1⟩ _ _)
        (Function.update_self _ _ _) rfl
        (fun v' hv => (Function.update_of_ne hv _ _).trans (hothers v' hv)) hexited hshutdown hplay
      exact ⟨.cons ⟨hstep, hG⟩ hnext.1, hnext.2⟩

theorem run_playRound {answer : Oracle W} (h : answer.Truthful) {job : Job} {s₀ : Sys W}
    (hstart : s₀.Step lib (.start job) (s.begin lib job)) (hs : s.Resting)
    (hp : playRound lib G answer s₀ s job = some (ls, t)) :
    ((system lib W).guarded G).Run s₀ ls t ∧ t.Resting := by
  simp only [playRound, Option.ite_none_right_eq_some, Option.map_eq_some_iff] at hp
  obtain ⟨hG, ⟨ls', t'⟩, hplay, heq⟩ := hp
  obtain ⟨rfl, rfl⟩ := Prod.mk.inj heq
  have hothers : ∀ v', v' ≠ job.service → (s.begin lib job).running v' = none := by
    intro v' hv
    simp [Sys.begin, Function.update_of_ne hv, hs.running]
  have hrun : ((system lib W).guarded G).Run (s.begin lib job) ls' t' ∧ t'.Resting :=
    run_playCalls h (Function.update_self _ _ _) rfl hothers hs.exited hs.shutdown hplay
  exact ⟨.cons ⟨hstart, hG⟩ hrun.1, hrun.2⟩

end Sys

/-- A whole round of one service, or a move of the world. -/
inductive Turn (W : World) where
  | index (i : IndexerId) (answer : Oracle W)
  | process (k : ProcessorId) (answer : Oracle W)
  | send (answer : Oracle W)
  | check (answer : Oracle W)
  | tick (f : W.State → W.State)

namespace Turn

/-- The world may do what the turn says it does. -/
def Sound : Turn W → Prop
  | .index _ answer | .process _ answer | .send answer | .check answer => answer.Truthful
  | .tick f => ∀ w, W.tick w (f w)

section

variable (lib) (G : Sys W → Label → Sys W → Prop) [∀ s l t, Decidable (G s l t)]

def play (s : Sys W) : Turn W → Option (List Label × Sys W)
  | .index i answer => Sys.playRound lib G answer s s (.index i (s.cursor i))
  | .process k answer => Sys.playRound lib G answer s s (.process k)
  | .send answer =>
      match s.shared.channel with
      | [] => none
      | data :: _ => Sys.playRound lib G answer s s.popChannel (.send data)
  | .check answer =>
      if s.config.fcrChains = [] then none else Sys.playRound lib G answer s s .check
  | .tick f =>
      let t : Sys W := { s with shared := { s.shared with world := f s.shared.world } }
      if G s .tick t then some ([.tick], t) else none

/-- Play the turns one after the other. -/
def playGuarded : Sys W → List (Turn W) → Option (List Label × Sys W)
  | s, [] => some ([], s)
  | s, turn :: rest =>
      match turn.play lib G s with
      | none => none
      | some (ls, t) => (playGuarded t rest).map fun p => (ls ++ p.1, p.2)

/-- Play them under no condition. -/
def playAll (s : Sys W) (turns : List (Turn W)) : Option (List Label × Sys W) :=
  playGuarded lib (fun _ _ _ => True) s turns

end

variable {G : Sys W → Label → Sys W → Prop} [∀ s l t, Decidable (G s l t)] {s t : Sys W}
  {ls : List Label}

theorem run_play {turn : Turn W} (h : turn.Sound) (hs : s.Resting)
    (hp : turn.play lib G s = some (ls, t)) :
    ((system lib W).guarded G).Run s ls t ∧ t.Resting := by
  cases turn with
  | index i answer => exact Sys.run_playRound h (.index (hs.idle _)) hs hp
  | process k answer => exact Sys.run_playRound h (.process (hs.idle _) hs.shutdown) hs hp
  | send answer =>
      simp only [play] at hp
      split at hp
      · cases hp
      · rename_i data rest hch
        exact Sys.run_playRound h (.recv (hs.idle _) hch)
          ⟨hs.running, hs.exited, hs.shutdown⟩ hp
  | check answer =>
      simp only [play] at hp
      split at hp
      · cases hp
      · exact Sys.run_playRound h (.check (hs.idle _) ‹_›) hs hp
  | tick f =>
      simp only [play, Option.ite_none_right_eq_some, Option.some.injEq, Prod.mk.injEq] at hp
      obtain ⟨hG, rfl, rfl⟩ := hp
      exact ⟨.single ⟨.tick (h _), hG⟩, ⟨hs.running, hs.exited, hs.shutdown⟩⟩

/-- **Played turns are a run**, every step of which meets the condition. -/
theorem run_playGuarded {turns : List (Turn W)} (h : ∀ turn ∈ turns, turn.Sound)
    (hs : s.Resting) (hp : playGuarded lib G s turns = some (ls, t)) :
    ((system lib W).guarded G).Run s ls t ∧ t.Resting := by
  induction turns generalizing s ls with
  | nil =>
      obtain ⟨rfl, rfl⟩ := Prod.mk.inj (Option.some.inj hp)
      exact ⟨.nil, hs⟩
  | cons turn rest ih =>
      simp only [playGuarded] at hp
      split at hp
      · cases hp
      · rename_i ls₁ s₁ hplay
        obtain ⟨⟨ls₂, t₂⟩, hrest, heq⟩ := Option.map_eq_some_iff.mp hp
        obtain ⟨rfl, rfl⟩ := Prod.mk.inj heq
        obtain ⟨hrun₁, hs₁⟩ := run_play (h turn (List.mem_cons_self ..)) hs hplay
        obtain ⟨hrun₂, hs₂⟩ := ih (fun turn ht => h turn (List.mem_cons_of_mem _ ht)) hs₁ hrest
        exact ⟨hrun₁.append hrun₂, hs₂⟩

/-- A check of a played history that comes out true is about a run. -/
theorem exists_of_playGuarded (turns : List (Turn W)) (p : List Label × Sys W → Bool)
    (h : ∀ turn ∈ turns, turn.Sound) (hs : s.Resting)
    (hp : (playGuarded lib G s turns).any p = true) :
    ∃ ls t, ((system lib W).guarded G).Run s ls t ∧ t.Resting ∧ p (ls, t) = true := by
  cases hplay : playGuarded lib G s turns with
  | none => simp [hplay] at hp
  | some out =>
      obtain ⟨ls, t⟩ := out
      obtain ⟨hrun, ht⟩ := run_playGuarded h hs hplay
      exact ⟨ls, t, hrun, ht, by simpa [hplay] using hp⟩

/-- The same for a history with a state to look at in the middle. -/
theorem exists_of_playGuarded₂ (turns₁ turns₂ : List (Turn W))
    (p : List Label × Sys W → List Label × Sys W → Bool)
    (h₁ : ∀ turn ∈ turns₁, turn.Sound) (h₂ : ∀ turn ∈ turns₂, turn.Sound) (hs : s.Resting)
    (hp : (playGuarded lib G s turns₁).any
      (fun q => (playGuarded lib G q.2 turns₂).any (p q)) = true) :
    ∃ ls₁ m ls₂ t, ((system lib W).guarded G).Run s ls₁ m ∧
      ((system lib W).guarded G).Run m ls₂ t ∧ p (ls₁, m) (ls₂, t) = true := by
  obtain ⟨ls₁, m, hrun₁, hm, hp₁⟩ := exists_of_playGuarded turns₁ _ h₁ hs hp
  obtain ⟨ls₂, t, hrun₂, -, hp₂⟩ := exists_of_playGuarded turns₂ _ h₂ hm hp₁
  exact ⟨ls₁, m, ls₂, t, hrun₁, hrun₂, hp₂⟩

theorem exists_of_playAll (turns : List (Turn W)) (p : List Label × Sys W → Bool)
    (h : ∀ turn ∈ turns, turn.Sound) (hs : s.Resting)
    (hp : (playAll lib s turns).any p = true) :
    ∃ ls t, (system lib W).Run s ls t ∧ t.Resting ∧ p (ls, t) = true := by
  obtain ⟨ls, t, hrun, ht, hpt⟩ := exists_of_playGuarded turns p h hs hp
  exact ⟨ls, t, hrun.of_guarded, ht, hpt⟩

theorem exists_of_playAll₂ (turns₁ turns₂ : List (Turn W))
    (p : List Label × Sys W → List Label × Sys W → Bool)
    (h₁ : ∀ turn ∈ turns₁, turn.Sound) (h₂ : ∀ turn ∈ turns₂, turn.Sound) (hs : s.Resting)
    (hp : (playAll lib s turns₁).any
      (fun q => (playAll lib q.2 turns₂).any (p q)) = true) :
    ∃ ls₁ m ls₂ t, (system lib W).Run s ls₁ m ∧ (system lib W).Run m ls₂ t ∧
      p (ls₁, m) (ls₂, t) = true := by
  obtain ⟨ls₁, m, ls₂, t, hrun₁, hrun₂, hpt⟩ :=
    exists_of_playGuarded₂ turns₁ turns₂ p h₁ h₂ hs hp
  exact ⟨ls₁, m, ls₂, t, hrun₁.of_guarded, hrun₂.of_guarded, hpt⟩

end Turn

theorem Turn.sound_any {turns : List (Turn World.any)} : ∀ turn ∈ turns, turn.Sound := by
  intro turn _
  cases turn <;> simp [Turn.Sound, Oracle.Truthful, World.any]

/-! ## Interleavings -/

namespace Sys

variable (lib)

/-- The next step of one service: into a round, on by one call, or out of it. -/
def stepOf (answer : Oracle W) (s : Sys W) (v : Service) : Option (Label × Sys W) :=
  match s.running v with
  | some r =>
      match r.rest with
      | .pure (.ok result) => some (.finish v, s.done v r.job result)
      | .pure (.error _) => none
      | .call o k =>
          let x := s.shared.handle answer o
          some (.call v ⟨o, x.1⟩, s.advance v r ⟨o, x.1⟩ (k x.1) x.2)
  | none =>
      if s.exited v then none
      else match v with
        | .indexer i => some (.start (.index i (s.cursor i)), s.begin lib (.index i (s.cursor i)))
        | .processor k =>
            if s.shutdown then none else some (.start (.process k), s.begin lib (.process k))
        | .on_chain_sender =>
            match s.shared.channel with
            | [] => none
            | data :: _ => some (.start (.send data), s.popChannel.begin lib (.send data))
        | .fcr_checker =>
            if s.config.fcrChains = [] then none else some (.start .check, s.begin lib .check)

/-- Let the services take their steps in this order. -/
def playSchedule (answer : Oracle W) : Sys W → List Service → Option (List Label × Sys W)
  | s, [] => some ([], s)
  | s, v :: rest =>
      match s.stepOf lib answer v with
      | none => none
      | some (l, t) => (playSchedule answer t rest).map fun q => (l :: q.1, q.2)

variable {lib} {s t : Sys W} {l : Label} {ls : List Label}

theorem step_of_stepOf {answer : Oracle W} (h : answer.Truthful) {v : Service}
    (hs : s.stepOf lib answer v = some (l, t)) : s.Step lib l t := by
  unfold stepOf at hs
  cases hr : s.running v with
  | some r =>
      simp only [hr] at hs
      cases hrest : r.rest with
      | pure a =>
          cases a with
          | error e => simp [hrest] at hs
          | ok result =>
              simp only [hrest, Option.some.injEq, Prod.mk.injEq] at hs
              obtain ⟨rfl, rfl⟩ := hs
              exact .finish hr hrest
      | call o k =>
          simp only [hrest, Option.some.injEq, Prod.mk.injEq] at hs
          obtain ⟨rfl, rfl⟩ := hs
          exact .call hr hrest (s.shared.handle_answers h o)
  | none =>
      simp only [hr, Option.ite_none_left_eq_some, Bool.not_eq_true] at hs
      obtain ⟨hexited, hs⟩ := hs
      have hidle : s.idle v := ⟨hr, hexited⟩
      cases v with
      | indexer i =>
          obtain ⟨rfl, rfl⟩ := Prod.mk.inj (Option.some.inj hs)
          exact .index hidle
      | processor k =>
          simp only [Option.ite_none_left_eq_some, Bool.not_eq_true] at hs
          obtain ⟨rfl, rfl⟩ := Prod.mk.inj (Option.some.inj hs.2)
          exact .process hidle hs.1
      | on_chain_sender =>
          simp only at hs
          split at hs
          · cases hs
          · rename_i data rest hch
            obtain ⟨rfl, rfl⟩ := Prod.mk.inj (Option.some.inj hs)
            exact .recv hidle hch
      | fcr_checker =>
          simp only [Option.ite_none_left_eq_some] at hs
          obtain ⟨rfl, rfl⟩ := Prod.mk.inj (Option.some.inj hs.2)
          exact .check hidle hs.1

/-- **A played schedule is a run.** -/
theorem run_playSchedule {answer : Oracle W} (h : answer.Truthful) {vs : List Service}
    (hp : playSchedule lib answer s vs = some (ls, t)) : (system lib W).Run s ls t := by
  induction vs generalizing s ls with
  | nil =>
      obtain ⟨rfl, rfl⟩ := Prod.mk.inj (Option.some.inj hp)
      exact .nil
  | cons v rest ih =>
      simp only [playSchedule] at hp
      split at hp
      · cases hp
      · rename_i l m hstep
        obtain ⟨⟨ls', t'⟩, hplay, heq⟩ := Option.map_eq_some_iff.mp hp
        obtain ⟨rfl, rfl⟩ := Prod.mk.inj heq
        exact .cons (step_of_stepOf h hstep) (ih hplay)

theorem exists_of_playSchedule {answer : Oracle W} (vs : List Service)
    (p : List Label × Sys W → Bool) (h : answer.Truthful)
    (hp : (playSchedule lib answer s vs).any p = true) :
    ∃ ls t, (system lib W).Run s ls t ∧ p (ls, t) = true := by
  cases hplay : playSchedule lib answer s vs with
  | none => simp [hplay] at hp
  | some out => exact ⟨out.1, out.2, run_playSchedule h hplay, by simpa [hplay] using hp⟩

/-- A part of a round goes on as the handler plays it. -/
theorem exists_run_exec {answer : Oracle W} (h : answer.Truthful) {α : Type} (p : Prog Calls α)
    {f : α → Action (Option Nat)} {v : Service} {r : Running} (hr : s.running v = some r)
    (hrest : r.rest = p.bind f) :
    ∃ ls t, (uninterrupted lib W).Run s ls t ∧
      t.running v = some ⟨r.job, r.trace ++ (p.exec (Shared.handle answer) s.shared).1,
        f (p.exec (Shared.handle answer) s.shared).2.1⟩ ∧
      t.shared = (p.exec (Shared.handle answer) s.shared).2.2 := by
  induction p generalizing s r with
  | pure a =>
      refine ⟨[], s, .nil, ?_, rfl⟩
      obtain ⟨job, trace, rest⟩ := r
      obtain rfl : rest = f a := hrest
      rw [hr]
      simp [Prog.exec]
  | call o k ih =>
      have hans := s.shared.handle_answers h o
      have hstep : s.Step lib (.call v ⟨o, (s.shared.handle answer o).1⟩) _ :=
        .call hr hrest hans
      obtain ⟨ls, t, hrun, ht, hshared⟩ := ih _ running_advance_self rfl
      refine ⟨_ :: ls, t, .cons ⟨hstep, rfl⟩ hrun, ?_, hshared⟩
      rw [ht]
      simp [Prog.exec, advance]

end Sys

/-! ## A deployment

One endpoint of each kind, Ethereum in fcr mode, both foreign flags set. -/

namespace Deployment

/-- A `DATA` quantity of `n` bytes. -/
def readBytes (n : Nat) (v : Json) : Except String (FixedBytes n) :=
  match v.asStr with
  | none => .error "invalid type"
  | some s => (hexDecode s.toList).bind fun bs =>
      if h : bs.length = n then .ok ⟨bs, h⟩ else .error "invalid length"

def logToValue (log : RpcLog) : Json :=
  let text {n : Nat} (b : Option (FixedBytes n)) : Json := b.elim .null fun b => .string b.debug
  .object [("address", .string log.address.debug),
    ("topics", .array (log.topics.map fun t => .string t.debug)),
    ("data", .string ("0x" ++ hexEncode log.data)),
    ("blockHash", text log.block_hash), ("transactionHash", text log.transaction_hash)]

def logFromValue (v : Json) : Except String Log := do
  let address ← readBytes 20 (v.index "address")
  let topics ← match v.index "topics" with
    | .array xs => xs.mapM (readBytes 32)
    | _ => .error "invalid type"
  match (v.index "data").asStr with
  | some s => return { address, topics, data := ← hexDecode s.toList }
  | none => .error "invalid type"

/-- A log's data is the whole payload, and every xDai transfer is the same. -/
def externals : Externals where
  keccak256 bs := ⟨(bs ++ List.replicate 32 0).take 32, by simp⟩
  parseKey _ := .ok ⟨.repeatByte 32 1⟩
  signerAddress _ := .repeatByte 20 1
  signMessage _ _ := .ok (List.replicate 65 7)
  toValue log := .ok (logToValue log)
  fromValue := logFromValue
  decodeAmbAffirmation log := .ok log.data
  decodeAmbSignature log := .ok log.data
  decodeXdaiAffirmation _ := .ok (.repeatByte 20 5, 7, .repeatByte 32 6)
  decodeXdaiSignature _ := .ok (.repeatByte 20 5, 7, .repeatByte 32 6, .repeatByte 20 8)
  overflow_checks := true

def config : Config where
  eth_rpc := ["http://eth-el"]
  gc_rpc := ["http://gc-el"]
  eth_rpc_ne := by simp
  gc_rpc_ne := by simp
  eth_bc_rpc := ["http://eth-beacon"]
  gc_bc_rpc := ["http://gc-beacon"]
  xdai_validator_private_key := some "0x01"
  amb_validator_private_key := some "0x01"
  eth_amb_bridge_address := .repeatByte 20 0x11
  gc_amb_bridge_address := .repeatByte 20 0x12
  eth_xdai_bridge_address := .repeatByte 20 0x13
  gc_xdai_bridge_address := .repeatByte 20 0x14
  xdai_execute_message_on_foreign := "true"
  amb_execute_message_on_foreign := "true"
  xdai_bridge_helper_address := .repeatByte 20 0x15
  amb_bridge_helper_address := .repeatByte 20 0x16
  max_retry_count := 5
  max_retry_count_pos := by decide
  max_retry_count_le := by decide
  max_block_range := 1000
  max_block_range_pos := by decide
  max_block_range_le := by decide
  eth_block_processing_mode := .fcr
  gc_block_processing_mode := .blockFinality

/-- A log of the given contract, in a block with the given hash. -/
def log (address : Address) (block_number : Nat) (block_hash : B256) : RpcLog where
  address := address
  topics := [.repeatByte 32 0x77]
  data := [1, 2, 3]
  block_hash := some block_hash
  block_number := some block_number
  transaction_hash := some (.repeatByte 32 0xcc)
  log_index := some 0

/-- An EL node's answer with a block. -/
def elBlock (number : String) (hash : B256) : HttpResponse :=
  .response 200 (.ok (.object [("result",
    .object [("number", .string number), ("hash", .string hash.debug)])]))

/-- Block 100 is safe, block 200 is finalized, and number 100 now belongs to
the block with hash `canonical`; no contract can be reached. -/
def lookups (canonical : B256) : Oracle World.any := fun _ r =>
  match r with
  | .ethGetBlockByNumber _ .safe => (elBlock "0x64" (.repeatByte 32 0xaa), ())
  | .ethGetBlockByNumber _ .finalized => (elBlock "0xc8" (.repeatByte 32 0xab), ())
  | .ethGetBlockByNumber _ (.number _) => (elBlock "0x64" canonical, ())
  | .getLogs _ filter => (.ok [log filter.address 100 (.repeatByte 32 0xaa)], ())
  | .beaconFinalized _ => (.transportError "timeout", ())
  | .connect _ => (.error "timeout", ())
  | .view _ => (.error "timeout", ())
  | .send .. => (.error "timeout", ())
  | .getReceipt _ => (.error "timeout", ())

/-- Two signatures are required, nobody has attested anything yet, and the
helpers hand out a blob of the length that goes with two signatures. -/
def views : (call : ViewCall) → call.Ret
  | .affirmationsSigned .. => false
  | .numAffirmationsSigned .. => (0 : U256)
  | .numMessagesSigned .. => (0 : U256)
  | .messagesSigned .. => false
  | .requiredSignatures .. => (2 : U256)
  | .ambGetSignatures .. => List.replicate 131 0
  | .xdaiGetMessageHash .. => .repeatByte 32 9
  | .xdaiGetSignatures .. => List.replicate 131 0

/-- Both chains can be reached, and every transaction is mined with this
execution status. -/
def relay (status : Bool) : Oracle World.any := fun _ r =>
  match r with
  | .connect _ => (.ok (), ())
  | .view call => (.ok (views call), ())
  | .send .. => (.ok 7, ())
  | .getReceipt _ => (.ok { transaction_hash := .repeatByte 32 3, status }, ())
  | .getLogs .. => (.ok [], ())
  | .beaconFinalized _ => (.transportError "timeout", ())
  | .ethGetBlockByNumber .. => (.transportError "timeout", ())

/-- A program run on its own over an empty database. -/
def runAlone {α : Type} (answer : Oracle World.any) (p : Prog Calls α) : Trace Calls × α :=
  let out := Prog.exec (Shared.handle answer) p
    { world := (), db := Db.empty, channel := [] }
  (out.1, out.2.1)

theorem runAlone_runs {α : Type} (answer : Oracle World.any) (p : Prog Calls α) :
    p.Runs (runAlone answer p).1 (runAlone answer p).2 :=
  Prog.exec_runs _ _ _

end Deployment

end BridgeValidator
