import BridgeValidator.AuditTrail
import BridgeValidator.RowSteps

/-!
# Who waits for whom

A round can be kept waiting in two places: a processor waits for room in the channel,
and the sender waits for a row the open transaction of the checker has locked. The
checker waits for nobody, so every wait can be ended by letting only those run that
are waited for. Nothing here relies on a statement that fails or a channel that
is closed: in `obliging` a step that has to wait can do nothing else.
-/

namespace BridgeValidator

open Interaction

variable {W : World} {lib : Externals}

/-! ## Waiting -/

/-- The call has to wait. -/
def Shared.Blocks (sh : Shared W) : Op → Prop
  | .channelSend _ => channelCapacity ≤ sh.channel.length
  | .db st => sh.db.isBlocked st = true
  | .rpc _ => False

/-- No answer is a way round a wait: the channel is open, and a statement is executed
when nothing blocks it. -/
def Sys.Obliging (s : Sys W) (l : Label) (t : Sys W) : Prop :=
  match l with
  | .call _ ⟨.channelSend _, x⟩ => x = .ok ()
  | .call _ ⟨.db st, x⟩ => s.shared.db.isBlocked st = false ∧
      ∃ skip, s.shared.db.exec skip st = (x, t.shared.db)
  | _ => True

def obliging (lib : Externals) (W : World) : Machine (Sys W) Label :=
  (system lib W).guarded Sys.Obliging

/-- Every call out of the process gets some answer, a failure at least. -/
def World.Responsive (W : World) : Prop := ∀ w r, ∃ x w', W.rpc w r x w'

/-- Whose step it is. -/
def Label.by (v : Service) : Label → Bool
  | .start job => job.service == v
  | .call v' _ => v' == v
  | .finish v' => v' == v
  | .exit v' => v' == v
  | .panic v' => v' == v
  | _ => false

/-- A step is one service's at most. -/
theorem Label.by_of_ne {v v' : Service} (l : Label) (h : l.by v = true) (hne : v ≠ v') :
    l.by v' = false := by
  cases l <;> simp_all [Label.by]

/-- With no row locked and room in the channel nobody waits. -/
theorem Shared.not_blocks {sh : Shared W} {o : Op} (htx : sh.db.tx = none)
    (hroom : sh.channel.length < channelCapacity ∨ ∀ data, o ≠ .channelSend data) :
    ¬sh.Blocks o := by
  have hlocked : sh.db.locked = [] := by rw [Db.locked, htx]; rfl
  cases o with
  | rpc rq => exact not_false
  | channelSend data => exact not_le.mpr (hroom.resolve_right fun h => h data rfl)
  | db st => cases st <;> simp [Shared.Blocks, Db.isBlocked, hlocked]

/-- The checker waits for nobody. -/
theorem Shared.not_blocks_of_auditing {sh : Shared W} {o : Op} {p : FcrChecker.Phase}
    (h : FcrChecker.auditing.allows p o) : ¬sh.Blocks o := by
  cases o with
  | rpc rq => exact not_false
  | channelSend data => exact h.elim
  | db st => cases st <;> first | exact Bool.false_ne_true | exact h.elim

/-- A call that does not block is answered. -/
theorem Shared.exists_answer (hW : W.Responsive) {sh : Shared W} {o : Op} (h : ¬sh.Blocks o) :
    ∃ x sh', sh.Answers o x sh' ∧ ∀ (s : Sys W) (v : Service) (r : Running)
      (rest : Action (Option Nat)), s.shared = sh →
      s.Obliging (.call v ⟨o, x⟩) (s.advance v r ⟨o, x⟩ rest sh') := by
  cases o with
  | rpc rq =>
      obtain ⟨x, w, hx⟩ := hW sh.world rq
      exact ⟨x, _, .rpc hx, fun _ _ _ _ _ => trivial⟩
  | channelSend data => exact ⟨.ok (), _, .sent (not_le.mp h), fun _ _ _ _ _ => rfl⟩
  | db st =>
      have hfree : sh.db.isBlocked st = false := Bool.eq_false_iff.mpr h
      refine ⟨(sh.db.exec (fun _ => false) st).1,
        { sh with db := (sh.db.exec (fun _ => false) st).2 },
        .db (Or.inl ⟨hfree, _, rfl⟩), ?_⟩
      rintro s v r rest rfl
      exact ⟨hfree, _, rfl⟩

/-! ## Rounds come to an end -/

/-- A protocol that asks for nothing. -/
def anyCall : Protocol Calls Unit where
  allows _ _ := True
  admits _ _ _ := True
  next _ _ _ := ()

/-- However it is answered, the program does not end with an error its caller would
have to deal with. -/
def Absorbs {α : Type} (p : Action α) : Prop :=
  Act.Follows anyCall () p fun _ r => ∀ e, r ≠ .error (.error e)

theorem follows_anyCall {α : Type} (p : Prog Calls α) :
    p.Follows anyCall (fun _ _ => True) () := by
  induction p with
  | pure a => trivial
  | call o k ih => exact ⟨trivial, fun x _ => ih x⟩

/-- What is caught does not get out. -/
theorem absorbs_attempt {α β : Type} {p : Action α} {f : Except BridgeValidatorError α → Action β}
    (h : ∀ r, Absorbs (f r)) : Absorbs (Act.attempt p >>= f) := by
  refine Act.follows_bind.mpr (Act.follows_attempt.mpr ((follows_anyCall p).mono ?_))
  rintro _ ((e | m) | a) -
  · exact h _
  · exact fun e he => by cases he
  · exact h _

theorem absorbs_andReturn {α β : Type} {p : Action α} {f : α → β} (h : Absorbs p) :
    Absorbs (do return f (← p)) := by
  refine Act.follows_bind.mpr (h.mono ?_)
  rintro _ ((e | m) | a) hno
  · exact absurd rfl (hno e)
  · exact fun e he => by cases he
  · exact fun e he => by cases he

/-- The loops log every error of their bodies and go on. -/
theorem absorbs_prog {cfg : Config} (job : Job) : Absorbs (job.prog lib cfg) := by
  have hpure : ∀ {α : Type} (a : α), Absorbs (pure a : Action α) := fun _ _ he => by cases he
  cases job with
  | index i last_processed_block =>
      refine absorbs_andReturn (absorbs_attempt fun r => ?_)
      cases r with
      | error e => exact hpure _
      | ok upper_bound_block =>
          refine absorbs_attempt fun r => ?_
          cases r <;> exact hpure _
  | process k =>
      refine absorbs_andReturn (absorbs_attempt fun r => ?_)
      rcases r with e | (_ | row)
      · exact hpure _
      · exact hpure _
      · exact absorbs_attempt fun _ => hpure _
  | send data =>
      refine absorbs_andReturn (absorbs_attempt fun r => ?_)
      cases r with
      | error e => exact absorbs_attempt fun _ => hpure _
      | ok a => exact hpure _
  | check =>
      refine absorbs_andReturn ?_
      unfold FcrChecker.cycle
      induction cfg.fcrChains with
      | nil => exact hpure _
      | cons c rest ih => exact absorbs_attempt fun _ => ih

/-! ## What keeps a wait from being endless -/

/-- A statement leaves no transaction behind that nobody is in. -/
theorem FcrChecker.Phase.tx_or_open {db db' : Db} {st : Stmt} {x : Except String st.Ret}
    {p : FcrChecker.Phase} (hans : db.Answers st x db') (h : db.tx = none ∨ p ≠ .closed) :
    db'.tx = none ∨ p.after (.db st) x ≠ .closed := by
  rcases hans with ⟨-, skip, hexec⟩ | ⟨hfail, rfl, e, rfl⟩
  · obtain ⟨rfl, rfl⟩ := Prod.mk.inj hexec.symm
    cases st with
    | begin => exact Or.inr fun hp => by cases hp
    | rollback => exact Or.inl rfl
    | commit =>
        left
        simp only [Db.commit]
        split
        · assumption
        · rfl
    | selectAffected modes n b =>
        simp only [Db.selectAffected]
        split
        · exact Or.inl ‹_›
        · exact Or.inr fun hp => by cases hp
    | insertFalsePositive row =>
        simp only [Db.insertFalsePositive]
        split
        · exact Or.inl ‹_›
        · rename_i tx htx
          right
          have hopen : p ≠ .closed := h.resolve_left (by simp [htx])
          cases p with
          | auditing => exact fun hp => by cases hp
          | _ => exact hopen
    | markReverted modes n b =>
        simp only [Db.markReverted]
        split
        · exact Or.inl ‹_›
        · exact Or.inr fun hp => by cases hp
    | markConfirmed modes n b => exact h
    | claim max =>
        simp only [Db.claim]
        split <;> exact h
    | insertEventLog n =>
        simp only [Db.insertEventLog]
        split
        · split <;> exact h
        · exact h
    | incrementRetryCount id =>
        simp only [Db.incrementRetryCount]
        split <;> exact h
    | _ => exact h
  · have hsame : p.after (.db st) (.error e) = p := by
      cases st <;> first | rfl | cases hfail
    rw [hsame]
    exact h

namespace Sys

/-- Who is waited for is there: the transaction is open only while the checker is in it,
and the sender leaves when nobody is left to send. -/
structure Orderly (s : Sys W) : Prop where
  tx : s.shared.db.tx = none ∨ s.phase ≠ .closed
  room : s.shared.channel.length ≤ channelCapacity
  stopped : ∀ v, s.exited v = true → s.running v = none
  drained : s.exited .on_chain_sender = true →
    s.shared.channel = [] ∧ ∀ k, s.exited (.processor k) = true

variable {s t : Sys W} {l : Label}

theorem orderly_boot {cfg : Config} {db : Db} {w : W.State} (h : db.tx = none) :
    (boot cfg db w).Orderly :=
  ⟨Or.inl h, Nat.zero_le _, fun _ _ => rfl, fun hout => Bool.noConfusion hout⟩

/-- Entering a round, with the channel at most shorter. -/
theorem Orderly.begin (h : s.Orderly) (job : Job) (hidle : s.idle job.service)
    {s' : Sys W} (hs' : s' = s ∨ s' = s.popChannel) : (s'.begin lib job).Orderly := by
  have hrunning : s'.running = s.running := by rcases hs' with rfl | rfl <;> rfl
  have hexited : s'.exited = s.exited := by rcases hs' with rfl | rfl <;> rfl
  have hdb : s'.shared.db = s.shared.db := by rcases hs' with rfl | rfl <;> rfl
  have hchannel : s'.shared.channel = s.shared.channel ∨
      s'.shared.channel = s.shared.channel.tail := by
    rcases hs' with rfl | rfl
    · exact Or.inl rfl
    · exact Or.inr rfl
  have hphase : (s'.begin lib job).phase = s.phase := by
    rw [phase_begin (by rw [hrunning]; exact hidle.1), phase, phase, hrunning]
  refine ⟨?_, ?_, fun v hv => ?_, fun hout => ?_⟩
  · rw [hphase]
    exact hdb ▸ h.tx
  · have hroom := h.room
    rcases hchannel with heq | heq <;> simp only [Sys.begin, heq, List.length_tail] <;> omega
  · have hv' : s.exited v = true := hexited ▸ hv
    have hne : v ≠ job.service := by
      rintro rfl
      rw [hidle.2] at hv'
      cases hv'
    rw [running_begin hne, hrunning]
    exact h.stopped v hv'
  · obtain ⟨hempty, hprocessors⟩ := h.drained (hexited ▸ hout)
    refine ⟨?_, fun k => ?_⟩
    · rcases hchannel with heq | heq <;> simp only [Sys.begin, heq, hempty, List.tail_nil]
    · show s'.exited _ = true
      rw [hexited]
      exact hprocessors k

theorem Orderly.call (h : s.Orderly) (hs : s.Coherent lib) {v : Service} {r : Running} {o : Op}
    {k : o.Ans → Prog Calls (Except (Exit BridgeValidatorError) (Option Nat))} {x : o.Ans}
    {sh : Shared W} (hr : s.running v = some r) (hrest : r.rest = Prog.call o k)
    (hans : s.shared.Answers o x sh) : (s.advance v r ⟨o, x⟩ (k x) sh).Orderly := by
  have hlive : ∀ v', s.exited v' = true → v' ≠ v := by
    rintro v' hv' rfl
    rw [h.stopped v' hv'] at hr
    cases hr
  refine ⟨?_, ?_, fun v' hv' => ?_, fun hout => ?_⟩
  · by_cases hv : v = .fcr_checker
    · subst hv
      have hphase : (s.advance .fcr_checker r ⟨o, x⟩ (k x) sh).phase = s.phase.after o x :=
        phase_advance hr
      rw [hphase]
      cases hans with
      | db hans => exact FcrChecker.Phase.tx_or_open hans h.tx
      | sent _ => exact h.tx
      | closed => exact h.tx
      | rpc _ => exact h.tx
    · have hphase : (s.advance v r ⟨o, x⟩ (k x) sh).phase = s.phase := phase_advance_of_ne hv
      rw [hphase]
      cases hans with
      | db hans =>
          refine h.tx.imp_left fun hnone => ?_
          exact (hans.tx_eq (hs.byChecker hr hrest hv)).1.trans hnone
      | _ => exact h.tx
  · cases hans with
    | sent hroom =>
        simp only [Sys.advance, List.length_append, List.length_singleton]
        exact hroom
    | _ => exact h.room
  · exact (running_advance (hlive v' hv')).trans (h.stopped v' hv')
  · obtain ⟨hempty, hprocessors⟩ := h.drained hout
    refine ⟨?_, hprocessors⟩
    cases hans with
    | sent hroom =>
        -- a processor that hands over has not left
        obtain ⟨j, hj, -⟩ := hs.processor_of_channelSend hr hrest
        exact absurd hj (hlive _ (hprocessors j)).symm
    | _ => exact hempty

theorem Orderly.step (h : s.Orderly) (hs : s.Coherent lib) (hstep : s.Step lib l t) :
    t.Orderly := by
  cases hstep with
  | @index i hidle => exact h.begin (.index i _) hidle (Or.inl rfl)
  | @process k hidle hsd => exact h.begin (.process k) hidle (Or.inl rfl)
  | @recv data rest hidle hch => exact h.begin (.send data) hidle (Or.inr rfl)
  | check hidle hfcr => exact h.begin .check hidle (Or.inl rfl)
  | call hr hrest hans => exact h.call hs hr hrest hans
  | @finish v r result hr hrest =>
      refine ⟨?_, h.room, fun v' hv' => ?_, h.drained⟩
      · by_cases hv : v = .fcr_checker
        · subst hv
          have hfollows := hs.auditing hr
          rw [hrest] at hfollows
          have hclosed : s.phase = .closed := hfollows
          exact Or.inl (h.tx.resolve_right (not_not.mpr hclosed))
        · rw [phase, running_done (Ne.symm hv)]
          exact h.tx
      · by_cases hv : v' = v
        · subst hv
          exact Function.update_self _ _ _
        · exact (running_done hv).trans (h.stopped v' hv')
  | panic hr hrest =>
      exact ⟨Or.inl rfl, Nat.zero_le _, fun _ _ => rfl, fun _ => ⟨rfl, fun _ => rfl⟩⟩
  | @exit v hidle hexit =>
      refine ⟨h.tx, h.room, fun v' hv' => ?_, fun hout => ?_⟩
      · by_cases hv : v' = v
        · subst hv
          exact hidle.1
        · exact h.stopped v' (by simpa [Function.update_of_ne hv] using hv')
      · have hkept : ∀ v', s.exited v' = true → Function.update s.exited v true v' = true := by
          intro v' hv'
          by_cases hv : v' = v
          · subst hv
            exact Function.update_self _ _ _
          · rw [Function.update_of_ne hv]
            exact hv'
        by_cases hv : v = .on_chain_sender
        · subst hv
          obtain ⟨hfirst, hsecond, hempty⟩ := hexit
          refine ⟨hempty, fun k => hkept (.processor k) ?_⟩
          cases k with
          | msg_processor_1 => exact hfirst
          | msg_processor_2 => exact hsecond
        · have hbefore : s.exited .on_chain_sender = true := by
            simpa [Function.update_of_ne (Ne.symm hv)] using hout
          obtain ⟨hempty, hprocessors⟩ := h.drained hbefore
          exact ⟨hempty, fun k => hkept (.processor k) (hprocessors k)⟩
  | signal => exact ⟨h.tx, h.room, h.stopped, h.drained⟩
  | tick hw => exact ⟨h.tx, h.room, h.stopped, h.drained⟩
  | restart => exact orderly_boot rfl

end Sys

theorem orderly_of_reachable {s : Sys W} (h : (system lib W).Reachable s) : s.Orderly := by
  refine h.invariant ?_ ?_
  · rintro s ⟨cfg, w, -, rfl⟩
    exact Sys.orderly_boot rfl
  · intro s l t hreach hs hstep
    exact hs.step (coherent_of_reachable hreach) hstep

/-! ## Running what is waited for -/

namespace Sys

/-- Nothing but the round of `v` and what it shares with the others has changed. -/
structure Aside (s : Sys W) (v : Service) (t : Sys W) : Prop where
  running : ∀ v', v' ≠ v → t.running v' = s.running v'
  exited : t.exited = s.exited
  shutdown : t.shutdown = s.shutdown

variable {s t u : Sys W} {v : Service} {r : Running}

theorem Aside.refl : s.Aside v s := ⟨fun _ _ => rfl, rfl, rfl⟩

theorem Aside.trans (h : s.Aside v t) (h' : t.Aside v u) : s.Aside v u :=
  ⟨fun v' hv => (h'.running v' hv).trans (h.running v' hv), h'.exited.trans h.exited,
    h'.shutdown.trans h.shutdown⟩

theorem aside_advance {e : Event Calls} {rest : Action (Option Nat)} {sh : Shared W} :
    s.Aside v (s.advance v r e rest sh) :=
  ⟨fun _ hv => running_advance hv, rfl, rfl⟩

/-- A round none of whose calls has to wait can go on to its end, on its own. -/
theorem exists_run_to_end (hW : W.Responsive) {σ : Type} {P : Protocol Calls σ}
    {Q : σ → Except (Exit BridgeValidatorError) (Option Nat) → Prop} {I : Shared W → Prop}
    (hadmits : ∀ g o x, P.admits g o x)
    (hfree : ∀ g o sh, P.allows g o → I sh → ¬sh.Blocks o)
    (hkeep : ∀ g o x sh sh', P.allows g o → I sh → sh.Answers o x sh' → I sh') {g : σ}
    (hr : s.running v = some r) (hp : Act.Follows P g r.rest Q) (hI : I s.shared) :
    ∃ ls t r' a, (obliging lib W).Run s ls t ∧ (∀ l ∈ ls, l.by v = true) ∧ s.Aside v t ∧
      I t.shared ∧ t.running v = some r' ∧ r'.rest = Prog.pure a := by
  generalize hrest : r.rest = p at hp
  induction p generalizing s r g with
  | pure a => exact ⟨[], s, r, a, .nil, List.forall_mem_nil _, .refl, hI, hr, hrest⟩
  | call o k ih =>
      obtain ⟨hallow, hnext⟩ := hp
      obtain ⟨x, sh, hans, hobliging⟩ := Shared.exists_answer hW (hfree g o s.shared hallow hI)
      have hstep : (obliging lib W).step s (.call v ⟨o, x⟩) (s.advance v r ⟨o, x⟩ (k x) sh) :=
        ⟨.call hr hrest hans, hobliging s v r (k x) rfl⟩
      obtain ⟨ls, t, r', a, hrun, hby, haside, hI', hr', hend⟩ := ih x
        (s := s.advance v r ⟨o, x⟩ (k x) sh) running_advance_self
        (hkeep g o x s.shared sh hallow hI hans) rfl (hnext x (hadmits g o x))
      refine ⟨_, t, r', a, .cons hstep hrun, ?_, aside_advance.trans haside, hI', hr', hend⟩
      intro l hl
      rcases List.mem_cons.mp hl with rfl | hl
      · exact beq_self_eq_true v
      · exact hby l hl

/-- Whoever is at the end of its round leaves it, or panics. -/
theorem exists_end (hs : s.Coherent lib) {a : Except (Exit BridgeValidatorError) (Option Nat)}
    (hr : s.running v = some r) (hend : r.rest = Prog.pure a) :
    (∃ result, (obliging lib W).step s (.finish v) (s.done v r.job result)) ∨
      (obliging lib W).step s (.panic v) s.down := by
  rcases a with (e | m) | result
  · -- errors are dealt with inside the round
    have hround := Prog.Follows.steps (absorbs_prog r.job) (hs v r hr).2
      (Protocol.admitted_of_all _ (fun _ _ _ => trivial) _ _)
    rw [hend] at hround
    exact absurd rfl (hround e)
  · exact Or.inr ⟨.panic hr hend, trivial⟩
  · exact Or.inl ⟨result, .finish hr hend, trivial⟩

/-- The checker can always bring its transaction to an end. -/
theorem exists_unlocked (hW : W.Responsive) (h : (system lib W).Reachable s) :
    ∃ ls t, (obliging lib W).Run s ls t ∧ (∀ l ∈ ls, l.by .fcr_checker = true) ∧
      s.Aside .fcr_checker t ∧ t.shared.channel = s.shared.channel ∧ t.shared.db.tx = none := by
  cases hr : s.running .fcr_checker with
  | none =>
      have hclosed : s.phase = .closed := by rw [phase, hr]; rfl
      exact ⟨[], s, .nil, List.forall_mem_nil _, .refl, rfl,
        (orderly_of_reachable h).tx.resolve_right (not_not.mpr hclosed)⟩
  | some r =>
      have hfree : ∀ p o (sh : Shared W), FcrChecker.auditing.allows p o →
          sh.channel = s.shared.channel → ¬sh.Blocks o :=
        fun _ _ _ hallow _ => Shared.not_blocks_of_auditing hallow
      have hkeep : ∀ p o (x : o.Ans) (sh sh' : Shared W), FcrChecker.auditing.allows p o →
          sh.channel = s.shared.channel → sh.Answers o x sh' →
          sh'.channel = s.shared.channel := by
        intro p o x sh sh' hallow hch hans
        cases hans with
        | sent _ => exact hallow.elim
        | _ => exact hch
      obtain ⟨ls, t, r', a, hrun, hby, haside, hch, hr', hend⟩ := exists_run_to_end hW
        (fun _ _ _ => trivial) hfree hkeep hr ((coherent_of_reachable h).auditing hr) rfl
      have ht := hrun.of_guarded.reachable h
      refine ⟨ls, t, hrun, hby, haside, hch, ?_⟩
      have hfollows := (coherent_of_reachable ht).auditing hr'
      rw [hend] at hfollows
      have hclosed : t.phase = .closed := by
        rcases a with (e | m) | result
        · exact hfollows
        · exact hfollows.elim
        · exact hfollows
      exact (orderly_of_reachable ht).tx.resolve_right (not_not.mpr hclosed)

/-- With no row locked the sender can end its round, unless it panics. -/
theorem exists_sender_idle (hW : W.Responsive) (h : (system lib W).Reachable s)
    (htx : s.shared.db.tx = none) :
    ∃ ls t, (obliging lib W).Run s ls t ∧ (∀ l ∈ ls, l.by .on_chain_sender = true) ∧
      ((s.Aside .on_chain_sender t ∧ t.shared.channel = s.shared.channel ∧
          t.running .on_chain_sender = none) ∨
        ∃ ls', ls = ls' ++ [.panic .on_chain_sender]) := by
  cases hr : s.running .on_chain_sender with
  | none => exact ⟨[], s, .nil, List.forall_mem_nil _, Or.inl ⟨.refl, rfl, hr⟩⟩
  | some r =>
      have hs := coherent_of_reachable h
      obtain ⟨hservice, hsteps⟩ := hs _ r hr
      cases hjob : r.job with
      | send data =>
          rw [hjob] at hsteps
          have hp := Prog.Follows.steps (Job.follows_send data) hsteps
            (Protocol.admitted_of_all _ (fun _ _ _ => trivial) _ _)
          have hfree : ∀ settled o (sh : Shared W),
              (OnChainSender.protocol data.event_log_id).allows settled o →
              sh.db.tx = none ∧ sh.channel = s.shared.channel → ¬sh.Blocks o := by
            intro settled o sh hallow hI
            refine Shared.not_blocks hI.1 (Or.inr ?_)
            rintro data rfl
            exact hallow.elim
          have hkeep : ∀ settled o (x : o.Ans) (sh sh' : Shared W),
              (OnChainSender.protocol data.event_log_id).allows settled o →
              sh.db.tx = none ∧ sh.channel = s.shared.channel → sh.Answers o x sh' →
              sh'.db.tx = none ∧ sh'.channel = s.shared.channel := by
            intro settled o x sh sh' hallow hI hans
            cases hans with
            | rpc _ => exact hI
            | @db st x db' hans =>
                have hst : st.byChecker = false := by
                  cases st <;> first | rfl | exact hallow.elim
                exact ⟨(hans.tx_eq hst).1.trans hI.1, hI.2⟩
            | sent _ => exact hallow.elim
            | closed => exact hI
          obtain ⟨ls, t, r', a, hrun, hby, haside, ⟨-, hch⟩, hr', hend⟩ := exists_run_to_end hW
            (fun _ _ _ => trivial) hfree hkeep hr hp ⟨htx, rfl⟩
          have ht := hrun.of_guarded.reachable h
          have hlast : ∀ (l : Label), l.by .on_chain_sender = true →
              ∀ l' ∈ ls ++ [l], l'.by .on_chain_sender = true := by
            intro l hl l' hl'
            rcases List.mem_append.mp hl' with hl' | hl'
            · exact hby l' hl'
            · rwa [List.mem_singleton.mp hl']
          rcases exists_end (coherent_of_reachable ht) hr' hend with ⟨result, hstep⟩ | hstep
          · refine ⟨_, _, .snoc hrun hstep, hlast _ rfl, Or.inl ⟨?_, hch, ?_⟩⟩
            · exact haside.trans ⟨fun v' hv => running_done hv, rfl, rfl⟩
            · simp [Sys.done]
          · exact ⟨_, _, .snoc hrun hstep, hlast _ rfl, Or.inr ⟨ls, rfl⟩⟩
      | _ =>
          rw [hjob] at hservice
          cases hservice

/-- **Every wait can be ended by those who are waited for.** In every reachable state in
which a round has to wait, the checker and the sender can go on, without a statement that
fails or a channel that is closed, until it need not wait any more (or the sender has
taken the process with it in a panic); the one who waits does nothing meanwhile. -/
theorem every_wait_can_end (hW : W.Responsive) (h : (system lib W).Reachable s) {o : Op}
    {k : o.Ans → Prog Calls (Except (Exit BridgeValidatorError) (Option Nat))}
    (hr : s.running v = some r) (hrest : r.rest = Prog.call o k) (hblocks : s.shared.Blocks o) :
    ∃ ls t, (obliging lib W).Run s ls t ∧
      (∀ l ∈ ls, (l.by .on_chain_sender || l.by .fcr_checker) = true ∧ l.by v = false) ∧
      (t.running v = some r ∧ ¬t.shared.Blocks o ∨
        ∃ ls', ls = ls' ++ [.panic .on_chain_sender]) := by
  have hs := coherent_of_reachable h
  obtain ⟨ls, m, hrun, hby, haside, hch, htx⟩ := exists_unlocked hW h
  have hm := hrun.of_guarded.reachable h
  cases o with
  | rpc rq => exact hblocks.elim
  | channelSend data =>
      obtain ⟨j, rfl, -⟩ := hs.processor_of_channelSend hr hrest
      obtain ⟨ls', t, hrun', hby', hend⟩ := exists_sender_idle hW hm htx
      have hothers : ∀ l : Label, l.by .on_chain_sender = true ∨ l.by .fcr_checker = true →
          (l.by .on_chain_sender || l.by .fcr_checker) = true ∧ l.by (.processor j) = false := by
        rintro l (hl | hl)
        · exact ⟨Bool.or_eq_true_iff.mpr (Or.inl hl), l.by_of_ne hl (by simp)⟩
        · exact ⟨Bool.or_eq_true_iff.mpr (Or.inr hl), l.by_of_ne hl (by simp)⟩
      have hboth : ∀ l ∈ ls ++ ls', l.by .on_chain_sender = true ∨ l.by .fcr_checker = true := by
        intro l hl
        exact (List.mem_append.mp hl).symm.imp (hby' l) (hby l)
      rcases hend with ⟨haside', hch', hidle⟩ | ⟨ls'', rfl⟩
      · -- the sender takes the next message, which makes room
        have ht := hrun'.of_guarded.reachable hm
        have hchannel : t.shared.channel = s.shared.channel := hch'.trans hch
        have hfull : channelCapacity ≤ t.shared.channel.length := hchannel ▸ hblocks
        have hlive : t.exited .on_chain_sender = false := by
          by_contra hout
          have hempty := ((orderly_of_reachable ht).drained (Bool.not_eq_false _ ▸ hout)).1
          rw [hempty] at hfull
          exact absurd hfull (by decide)
        cases hrest' : t.shared.channel with
        | nil =>
            rw [hrest'] at hfull
            exact absurd hfull (by decide)
        | cons data' rest =>
            have hstep : (obliging lib W).step t (.start (.send data'))
                (t.popChannel.begin lib (.send data')) := ⟨.recv ⟨hidle, hlive⟩ hrest', trivial⟩
            refine ⟨_, _, .snoc (hrun.append hrun') hstep, fun l hl => ?_, Or.inl ⟨?_, ?_⟩⟩
            · rcases List.mem_append.mp hl with hl | hl
              · exact hothers l (hboth l hl)
              · rw [List.mem_singleton.mp hl]
                exact ⟨rfl, rfl⟩
            · have hkept := (haside'.running (.processor j) (by simp)).trans
                (haside.running (.processor j) (by simp))
              have hbegin : (t.popChannel.begin lib (.send data')).running (.processor j) =
                  t.popChannel.running (.processor j) := running_begin (by simp [Job.service])
              exact hbegin.trans (hkept.trans hr)
            · have hroom := (orderly_of_reachable ht).room
              rw [hrest', List.length_cons] at hroom
              simp only [Shared.Blocks, Sys.begin, popChannel, hrest', List.tail_cons]
              omega
      · exact ⟨_, _, hrun.append hrun', fun l hl => hothers l (hboth l hl),
          Or.inr ⟨ls ++ ls'', by rw [List.append_assoc]⟩⟩
  | db st =>
      have hsender : (Op.db st).bySender = true := by
        cases st <;> first | rfl | exact Bool.noConfusion hblocks
      obtain ⟨rfl, -⟩ := hs.sender_allows hr hrest hsender
      refine ⟨ls, m, hrun, fun l hl => ?_, Or.inl ⟨?_, ?_⟩⟩
      · exact ⟨Bool.or_eq_true_iff.mpr (Or.inr (hby l hl)), l.by_of_ne (hby l hl) (by simp)⟩
      · exact (haside.running .on_chain_sender (by simp)).trans hr
      · exact Shared.not_blocks htx (Or.inr (by simp))

end Sys

/-- An affirmation is to be released while the checker has its row locked. -/
def Deployment.lockedRelease : List Service :=
  List.replicate 5 (.indexer .ETHAmb) ++ List.replicate 4 (.processor .msg_processor_1) ++
    List.replicate 2 .on_chain_sender ++ List.replicate 9 .fcr_checker

/-- The sender is about to release a locked row. -/
def Sys.atLockedRelease (s : Sys W) : Bool :=
  match s.running .on_chain_sender with
  | some ⟨_, _, .call (.db (.incrementRetryCount id)) _⟩ => decide (id ∈ s.shared.db.locked)
  | _ => false

/-- The sender waits for a row of the checker's transaction, and can be let through. -/
theorem every_wait_can_end_locked :
    ∃ (s t : Sys World.any) (r : Running) (id : Int) (ls : List Label),
      (obliging Deployment.externals World.any).Run s ls t ∧
      s.shared.Blocks (.db (.incrementRetryCount id)) ∧
      (t.running .on_chain_sender = some r ∧ ¬t.shared.Blocks (.db (.incrementRetryCount id)) ∨
        ∃ ls', ls = ls' ++ [.panic .on_chain_sender]) := by
  have hW : World.any.Responsive := by
    intro w r
    exact ⟨(Deployment.lookups (.repeatByte 32 0xbb) () r).1, (), trivial⟩
  obtain ⟨ls, s, hrun, hp⟩ := Sys.exists_of_playSchedule
    (s := Sys.boot Deployment.config Db.empty ())
    Deployment.lockedRelease (fun q => q.2.atLockedRelease)
    (World.any_truthful (Deployment.lookups (.repeatByte 32 0xbb)))
    (show (Sys.playSchedule Deployment.externals _ _ _).any _ = true by decide +kernel)
  simp only [Sys.atLockedRelease] at hp
  split at hp
  · rename_i job trace id k hr
    have hreach : (system Deployment.externals World.any).Reachable s :=
      ⟨_, ls, ⟨Deployment.config, (), trivial, rfl⟩, hrun⟩
    obtain ⟨ls', t, hrun', -, hend⟩ := Sys.every_wait_can_end hW hreach hr rfl hp
    exact ⟨s, t, _, id, ls', hrun', hp, hend⟩
  · cases hp

end BridgeValidator
