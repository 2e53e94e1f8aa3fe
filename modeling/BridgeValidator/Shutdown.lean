import BridgeValidator.Progress
import Mathlib.Data.Set.Finite.List
import Mathlib.Order.Filter.AtTopBot.Basic
import Mathlib.Order.Filter.Finite

/-!
# Graceful shutdown

Once the signal is out, processors begin no round, a poller begins no other one after the
round it is in, and the sender begins one for each message that is still there. Rounds
come to an end, and nobody waits for ever. So the process ends, with the channel
drained.
-/

namespace BridgeValidator

open Interaction

variable {W : World} {lib : Externals}

/-- The services `main` joins. -/
def services : List Service :=
  [.indexer .ETHAmb, .indexer .ETHXdai, .indexer .GCAmb, .indexer .GCXdai,
    .processor .msg_processor_1, .processor .msg_processor_2, .on_chain_sender, .fcr_checker]

theorem mem_services (v : Service) : v ∈ services := by
  rcases v with (i | i | i | i) | (k | k) | _ | _ <;> decide

/-! ## Endless runs of one process -/

/-- The process is not started anew. -/
def Undisturbed (p : (system lib W).Path) : Prop := ∀ k, (p.label k).isRestart = false

/-- A poller that comes to its `select!` after the signal leaves: `changed()` is ready,
and the sleep has only begun. -/
def Prompt (p : (system lib W).Path) : Prop :=
  ∀ i j v job, i < j → p.label i = .finish v → p.label j = .start job → job.service = v →
    v = .on_chain_sender

/-- As long as somebody can go on, somebody does; so calls are answered some time. -/
def Willing (p : (system lib W).Path) : Prop :=
  ∀ k, (∃ v l t, (obliging lib W).step (p.state k) l t ∧ l.by v = true) →
    ∃ j v, k ≤ j ∧ (p.label j).by v = true

namespace Sys

variable {s t : Sys W} {l : Label}

theorem Step.shutdown_of (h : s.Step lib l t) (hl : l.isRestart = false)
    (hs : s.shutdown = true) : t.shutdown = true := by
  cases h with
  | restart => cases hl
  | signal => rfl
  | _ => exact hs

theorem Step.exited_of (h : s.Step lib l t) (hl : l.isRestart = false) {v : Service}
    (hv : s.exited v = true) : t.exited v = true := by
  cases h with
  | restart => cases hl
  | panic => rfl
  | @exit v' hidle hexit =>
      by_cases heq : v = v'
      · subst heq
        exact Function.update_self _ _ _
      · exact (Function.update_of_ne heq _ _).trans hv
  | _ => exact hv

theorem Step.exited_of_ends (h : s.Step lib l t) (hl : l.isRestart = false)
    (hends : l.ends = true) {v : Service} : t.exited v = true := by
  cases h with
  | panic hr hrest => rfl
  | restart => cases hl
  | _ => cases hends

/-- What is left of the round of `v`. -/
def left (s : Sys W) (v : Service) : Option (Action (Option Nat)) := (s.running v).map Running.rest

theorem left_eq (h : t.running = s.running) (v : Service) : t.left v = s.left v := by
  rw [left, left, h]

theorem left_begin {job : Job} {v : Service} (hv : v ≠ job.service) :
    (s.begin lib job).left v = s.left v := by
  rw [left, left, running_begin hv]

/-- The steps of `v` that are not the beginning of a round bring it on, and no step of
another service puts it back. -/
theorem Step.left_of (h : s.Step lib l t) {v : Service}
    (hstart : ∀ job, l = .start job → job.service ≠ v) :
    (t.left v = s.left v ∨ Prog.Later (t.left v) (s.left v)) ∧
      (l.by v = true → l ≠ .exit v → Prog.Later (t.left v) (s.left v)) := by
  have hbegin : ∀ (s' : Sys W) (job : Job), s'.running = s.running → job.service ≠ v →
      ((s'.begin lib job).left v = s.left v ∨ Prog.Later ((s'.begin lib job).left v) (s.left v)) ∧
        ((Label.start job).by v = true → Label.start job ≠ .exit v →
          Prog.Later ((s'.begin lib job).left v) (s.left v)) := by
    intro s' job heq hne
    refine ⟨Or.inl ((left_begin (Ne.symm hne)).trans (left_eq heq v)), fun hby => ?_⟩
    exact absurd (beq_iff_eq.mp hby) hne
  cases h with
  | index hidle => exact hbegin s _ rfl (hstart _ rfl)
  | process hidle hsd => exact hbegin s _ rfl (hstart _ rfl)
  | recv hidle hch => exact hbegin s.popChannel _ rfl (hstart _ rfl)
  | check hidle hfcr => exact hbegin s _ rfl (hstart _ rfl)
  | @call v' r o k x sh hr hrest hans =>
      by_cases hv : v' = v
      · subst hv
        have hlater : Prog.Later ((s.advance v' r ⟨o, x⟩ (k x) sh).left v') (s.left v') := by
          have hold : s.left v' = some (Prog.call o k) := by rw [left, hr, ← hrest]; rfl
          have hnew : (s.advance v' r ⟨o, x⟩ (k x) sh).left v' = some (k x) :=
            congrArg (Option.map Running.rest) running_advance_self
          rw [hold, hnew]
          exact @Prog.Later.call Calls _ o k x
        exact ⟨Or.inr hlater, fun _ _ => hlater⟩
      · have hsame : (s.advance v' r ⟨o, x⟩ (k x) sh).left v = s.left v :=
          congrArg (Option.map Running.rest) (running_advance (Ne.symm hv))
        exact ⟨Or.inl hsame, fun hby => absurd (beq_iff_eq.mp hby) hv⟩
  | @finish v' r result hr hrest =>
      by_cases hv : v' = v
      · subst hv
        have hlater : Prog.Later ((s.done v' r.job result).left v') (s.left v') := by
          have hold : s.left v' = some r.rest := by rw [left, hr]; rfl
          have hnew : (s.done v' r.job result).left v' = none := by simp [left, Sys.done]
          rw [hold, hnew]
          exact .ended
        exact ⟨Or.inr hlater, fun _ _ => hlater⟩
      · have hsame : (s.done v' r.job result).left v = s.left v :=
          congrArg (Option.map Running.rest) (running_done (Ne.symm hv))
        exact ⟨Or.inl hsame, fun hby => absurd (beq_iff_eq.mp hby) hv⟩
  | @panic v' r msg hr hrest =>
      have hnew : (s.down).left v = none := rfl
      rw [hnew]
      cases hold : s.left v with
      | none =>
          refine ⟨Or.inl rfl, fun hby => ?_⟩
          obtain rfl : v' = v := beq_iff_eq.mp hby
          rw [left, hr] at hold
          cases hold
      | some p => exact ⟨Or.inr .ended, fun _ _ => .ended⟩
  | @exit v' hidle hexit =>
      refine ⟨Or.inl rfl, fun hby hne => ?_⟩
      obtain rfl : v' = v := beq_iff_eq.mp hby
      exact absurd rfl hne
  | signal => exact ⟨Or.inl rfl, fun hby => by cases hby⟩
  | tick hw => exact ⟨Or.inl rfl, fun hby => by cases hby⟩
  | restart => exact ⟨by cases hold : s.left v with
      | none => exact Or.inl rfl
      | some p => exact Or.inr .ended, fun hby => by cases hby⟩

end Sys

/-! ## Everybody comes to rest -/

section

variable {p : (system lib W).Path}

theorem path_reachable (h : (system lib W).Reachable (p.state 0)) (k : Nat) :
    (system lib W).Reachable (p.state k) := (p.run k).reachable h

theorem exited_mono (hlive : Undisturbed p) {v : Service} {i j : Nat} (hij : i ≤ j)
    (h : (p.state i).exited v = true) : (p.state j).exited v = true := by
  induction hij with
  | refl => exact h
  | step _ ih => exact (p.step _).exited_of (hlive _) ih

theorem shutdown_mono (hlive : Undisturbed p) (h : (p.state 0).shutdown = true) (k : Nat) :
    (p.state k).shutdown = true := by
  induction k with
  | zero => exact h
  | succ k ih => exact (p.step k).shutdown_of (hlive k) ih

/-- Who has left does nothing. -/
theorem Sys.Orderly.not_by {s t : Sys W} {l : Label} {v : Service} (h : s.Orderly)
    (hstep : s.Step lib l t) (hv : s.exited v = true) : l.by v = false := by
  have hidle : ∀ v', s.idle v' → v' ≠ v := by
    rintro v' hidle rfl
    rw [hidle.2] at hv
    cases hv
  have hrunning : ∀ v' r, s.running v' = some r → v' ≠ v := by
    rintro v' r hr rfl
    rw [h.stopped v' hv] at hr
    cases hr
  cases hstep with
  | index hi | process hi _ | recv hi _ | check hi _ | exit hi _ =>
      exact beq_false_of_ne (hidle _ hi)
  | call hr _ _ | finish hr _ | panic hr _ => exact beq_false_of_ne (hrunning _ _ hr)
  | signal | tick _ | restart => rfl

/-- Whoever begins no more rounds does nothing more at some point. -/
theorem eventually_still (h : (system lib W).Reachable (p.state 0)) (hlive : Undisturbed p)
    {v : Service} (hstart : ∀ᶠ j in Filter.atTop, ∀ job, p.label j = .start job → job.service ≠ v) :
    ∀ᶠ j in Filter.atTop, (p.label j).by v = false := by
  by_cases hleaves : ∃ i, (p.state i).exited v = true
  · obtain ⟨i, hi⟩ := hleaves
    refine Filter.eventually_atTop.mpr ⟨i, fun j hj => ?_⟩
    exact (orderly_of_reachable (path_reachable h j)).not_by (p.step j) (exited_mono hlive hj hi)
  · obtain ⟨k₀, hk₀⟩ := Filter.eventually_atTop.mp hstart
    have hstays : ∀ j, p.label j ≠ .exit v := by
      intro j hexit
      have hstep := p.step j
      rw [hexit] at hstep
      refine hleaves ⟨j + 1, ?_⟩
      generalize p.state (j + 1) = t at hstep
      cases hstep with
      | exit hidle hmay => exact Function.update_self _ _ _
    obtain ⟨k, hk⟩ := p.eventually_of_descent (q := Label.by v) Prog.later_wf
      (fun s => s.left v) k₀ (fun j hj => ((p.step j).left_of (hk₀ j hj)).1)
      (fun j hj hby => ((p.step j).left_of (hk₀ j hj)).2 hby (hstays j))
    exact Filter.eventually_atTop.mpr ⟨k, hk⟩

/-- A round that has begun goes on until it is over or the process is gone. -/
theorem Sys.Step.running_of {s t : Sys W} {l : Label} {v : Service} (h : s.Step lib l t)
    (hv : s.running v ≠ none) : l = .finish v ∨ l.ends = true ∨ t.running v ≠ none := by
  have hbegin : ∀ (s' : Sys W) (job : Job), s'.running = s.running → s.idle job.service →
      (s'.begin lib job).running v ≠ none := by
    intro s' job heq hidle
    have hne : v ≠ job.service := by
      rintro rfl
      exact hv hidle.1
    rw [running_begin hne, heq]
    exact hv
  cases h with
  | index hidle => exact Or.inr (Or.inr (hbegin s _ rfl hidle))
  | process hidle hsd => exact Or.inr (Or.inr (hbegin s _ rfl hidle))
  | recv hidle hch => exact Or.inr (Or.inr (hbegin s.popChannel _ rfl hidle))
  | check hidle hfcr => exact Or.inr (Or.inr (hbegin s _ rfl hidle))
  | @call v' r o k x sh hr hrest hans =>
      refine Or.inr (Or.inr ?_)
      intro hnone
      by_cases heq : v = v'
      · subst heq
        cases running_advance_self.symm.trans hnone
      · exact hv ((running_advance heq).symm.trans hnone)
  | @finish v' r result hr hrest =>
      by_cases heq : v' = v
      · exact Or.inl (heq ▸ rfl)
      · exact Or.inr (Or.inr fun hnone => hv ((running_done (Ne.symm heq)).symm.trans hnone))
  | panic _ _ | restart => exact Or.inr (Or.inl rfl)
  | exit _ _ | signal | tick _ => exact Or.inr (Or.inr hv)

/-- Between two rounds of a service the first one is finished. -/
theorem exists_finish (hlive : Undisturbed p) {i j : Nat} {job job' : Job} (hij : i < j)
    (hi : p.label i = .start job) (hj : p.label j = .start job')
    (hservice : job'.service = job.service) :
    ∃ n, i < n ∧ n < j ∧ p.label n = .finish job.service := by
  have hbusy : ∀ m, i < m → (∃ n, i < n ∧ n < m ∧ p.label n = .finish job.service) ∨
      (p.state m).exited job.service = true ∨ (p.state m).running job.service ≠ none := by
    intro m hm
    induction hm with
    | refl =>
        have hstep := p.step i
        rw [hi] at hstep
        refine Or.inr (Or.inr ?_)
        generalize p.state (i + 1) = t at hstep
        cases hstep <;> simp [Sys.begin]
    | @step m hm ih =>
        rcases ih with ⟨n, hin, hnm, hn⟩ | hout | hrunning
        · exact Or.inl ⟨n, hin, Nat.lt_succ_of_lt hnm, hn⟩
        · exact Or.inr (Or.inl ((p.step m).exited_of (hlive m) hout))
        · rcases (p.step m).running_of hrunning with hfinish | hends | hnext
          · exact Or.inl ⟨m, hm, Nat.lt_succ_self m, hfinish⟩
          · exact Or.inr (Or.inl ((p.step m).exited_of_ends (hlive m) hends))
          · exact Or.inr (Or.inr hnext)
  have hidle : (p.state j).idle job.service := by
    have hstep := p.step j
    rw [hj] at hstep
    rw [← hservice]
    generalize p.state (j + 1) = t at hstep
    cases hstep with
    | index hi | process hi _ | check hi _ | recv hi _ => exact hi
  rcases hbusy j hij with hfinish | hout | hrunning
  · exact hfinish
  · rw [hidle.2] at hout
    cases hout
  · exact absurd hidle.1 hrunning

/-- A service other than the sender begins one more round at most. -/
theorem eventually_no_start (hlive : Undisturbed p) (hprompt : Prompt p) {v : Service}
    (hv : v ≠ .on_chain_sender) :
    ∀ᶠ j in Filter.atTop, ∀ job, p.label j = .start job → job.service ≠ v := by
  by_cases hstarts : ∃ i job, p.label i = .start job ∧ job.service = v
  · obtain ⟨i, job, hi, rfl⟩ := hstarts
    refine Filter.eventually_atTop.mpr ⟨i + 1, fun j hj job' hj' hservice => ?_⟩
    obtain ⟨n, -, hnj, hn⟩ := exists_finish hlive hj hi hj' hservice
    exact hv (hprompt n j job.service job' hnj hn hj' hservice)
  · exact Filter.Eventually.of_forall fun j job hj hservice => hstarts ⟨j, job, hj, hservice⟩

/-- The sender takes a message out of the channel. -/
def Label.receives : Label → Bool
  | .start job => job.service == .on_chain_sender
  | _ => false

/-- Unless a processor takes a step, the channel at most gets shorter; each round of the
sender takes a message out of it. -/
theorem Sys.Step.channel_of {s t : Sys W} {l : Label} (hs : s.Coherent lib) (h : s.Step lib l t)
    (hproc : ∀ k, l.by (.processor k) = false) :
    (t.shared.channel.length = s.shared.channel.length ∨
      t.shared.channel.length < s.shared.channel.length) ∧
    (l.receives = true → t.shared.channel.length < s.shared.channel.length) := by
  cases h with
  | @recv data rest hidle hch =>
      have hlt : (s.popChannel.begin lib (.send data)).shared.channel.length <
          s.shared.channel.length := by
        simp [Sys.begin, popChannel, hch]
      exact ⟨Or.inr hlt, fun _ => hlt⟩
  | @call v r o k x sh hr hrest hans =>
      refine ⟨Or.inl ?_, fun hrecv => by cases hrecv⟩
      cases hans with
      | sent hroom =>
          obtain ⟨j, rfl, -⟩ := hs.processor_of_channelSend hr hrest
          exact absurd (hproc j) (by simp [Label.by])
      | _ => rfl
  | panic hr hrest =>
      exact ⟨(Nat.zero_le _).eq_or_lt, fun hrecv => by cases hrecv⟩
  | restart =>
      exact ⟨(Nat.zero_le _).eq_or_lt, fun hrecv => by cases hrecv⟩
  | index _ | process _ _ | check _ _ =>
      exact ⟨Or.inl rfl, fun hrecv => by cases hrecv⟩
  | finish _ _ | exit _ _ | signal | tick _ => exact ⟨Or.inl rfl, fun hrecv => by cases hrecv⟩

/-- After the signal everybody comes to rest. -/
theorem eventually_quiet (h : (system lib W).Reachable (p.state 0)) (hlive : Undisturbed p)
    (hprompt : Prompt p) : ∀ᶠ j in Filter.atTop, ∀ v, (p.label j).by v = false := by
  have hothers : ∀ v, v ≠ .on_chain_sender →
      ∀ᶠ j in Filter.atTop, (p.label j).by v = false :=
    fun v hv => eventually_still h hlive (eventually_no_start hlive hprompt hv)
  have hsender : ∀ᶠ j in Filter.atTop, (p.label j).by .on_chain_sender = false := by
    have hprocessors : ∀ᶠ j in Filter.atTop, ∀ k, (p.label j).by (.processor k) = false := by
      filter_upwards [hothers (.processor .msg_processor_1) (by simp),
        hothers (.processor .msg_processor_2) (by simp)] with j hfirst hsecond k
      cases k with
      | msg_processor_1 => exact hfirst
      | msg_processor_2 => exact hsecond
    obtain ⟨k₀, hk₀⟩ := Filter.eventually_atTop.mp hprocessors
    have hstep := fun j hj =>
      (p.step j).channel_of (coherent_of_reachable (path_reachable h j)) (hk₀ j hj)
    obtain ⟨k, hk⟩ := p.eventually_of_descent (q := Label.receives) wellFounded_lt
      (fun s => s.shared.channel.length) k₀ (fun j hj => (hstep j hj).1)
      (fun j hj => (hstep j hj).2)
    refine eventually_still h hlive (Filter.eventually_atTop.mpr ⟨k, fun j hj job hjob => ?_⟩)
    intro hservice
    have hnone := hk j hj
    rw [hjob, Label.receives, hservice] at hnone
    cases hnone
  have hall : ∀ v ∈ {v | v ∈ services}, ∀ᶠ j in Filter.atTop, (p.label j).by v = false := by
    intro v _
    by_cases hv : v = .on_chain_sender
    · subst hv
      exact hsender
    · exact hothers v hv
  filter_upwards [(Filter.eventually_all_finite (List.finite_toSet services)).mpr hall]
    with j hj v
  exact hj v (mem_services v)

end

/-! ## Somebody can always go on -/

namespace Sys

variable {s : Sys W} {v : Service} {r : Running}

theorem exists_step_of_running (hW : W.Responsive) (hs : s.Coherent lib)
    (hr : s.running v = some r)
    (hfree : ∀ (o : Op) (k : o.Ans → Action (Option Nat)), r.rest = Prog.call o k →
      ¬s.shared.Blocks o) :
    ∃ l t, (obliging lib W).step s l t ∧ l.by v = true := by
  cases hrest : r.rest with
  | pure a =>
      rcases exists_end hs hr hrest with ⟨result, hstep⟩ | hstep
      · exact ⟨_, _, hstep, beq_self_eq_true v⟩
      · exact ⟨_, _, hstep, beq_self_eq_true v⟩
  | call o k =>
      obtain ⟨x, sh, hans, hobliging⟩ := Shared.exists_answer hW (hfree o k hrest)
      exact ⟨_, _, ⟨.call hr hrest hans, hobliging s v r (k x) rfl⟩, beq_self_eq_true v⟩

/-- Who is waited for can go on; with nobody in a round, who is left leaves. -/
theorem exists_step_of_shutdown (hW : W.Responsive) (h : (system lib W).Reachable s)
    (hsd : s.shutdown = true) (hv : s.exited v = false) :
    ∃ v l t, (obliging lib W).step s l t ∧ l.by v = true := by
  have hs := coherent_of_reachable h
  have hord := orderly_of_reachable h
  have hexit : ∀ v, s.idle v → s.mayExit v →
      ∃ v l t, (obliging lib W).step s l t ∧ l.by v = true :=
    fun v hidle hmay => ⟨v, _, _, ⟨.exit hidle hmay, trivial⟩, beq_self_eq_true v⟩
  cases hchecker : s.running .fcr_checker with
  | some r =>
      refine ⟨_, exists_step_of_running hW hs hchecker fun o k hrest => ?_⟩
      exact Shared.not_blocks_of_auditing (hs.auditing_allows hchecker hrest)
  | none =>
      have hclosed : s.phase = .closed := by rw [phase, hchecker]; rfl
      have htx : s.shared.db.tx = none := hord.tx.resolve_right (not_not.mpr hclosed)
      cases hsender : s.running .on_chain_sender with
      | some r =>
          refine ⟨_, exists_step_of_running hW hs hsender fun o k hrest => ?_⟩
          refine Shared.not_blocks htx (Or.inr ?_)
          rintro data rfl
          obtain ⟨j, hj, -⟩ := hs.processor_of_channelSend hsender hrest
          cases hj
      | none =>
          cases hch : s.shared.channel with
          | cons data rest =>
              have hlive : s.exited .on_chain_sender = false := by
                by_contra hout
                have hempty := (hord.drained (Bool.not_eq_false _ ▸ hout)).1
                rw [hch] at hempty
                cases hempty
              exact ⟨_, _, _, ⟨.recv ⟨hsender, hlive⟩ hch, trivial⟩,
                beq_self_eq_true Service.on_chain_sender⟩
          | nil =>
              by_cases hrunning : ∃ v r, s.running v = some r
              · obtain ⟨v, r, hr⟩ := hrunning
                refine ⟨v, exists_step_of_running hW hs hr fun o k hrest => ?_⟩
                exact Shared.not_blocks htx (Or.inl (by rw [hch]; decide))
              · have hidle : ∀ v, s.exited v = false → s.idle v := by
                  refine fun v hv => ⟨?_, hv⟩
                  by_contra hr
                  exact hrunning ⟨v, Option.ne_none_iff_exists'.mp hr⟩
                cases v with
                | indexer i => exact hexit _ (hidle _ hv) hsd
                | processor k => exact hexit _ (hidle _ hv) hsd
                | fcr_checker => exact hexit _ (hidle _ hv) (Or.inl hsd)
                | on_chain_sender =>
                    -- the sender leaves after the processors
                    by_cases hprocessors : ∃ k, s.exited (.processor k) = false
                    · obtain ⟨k, hk⟩ := hprocessors
                      exact hexit _ (hidle _ hk) hsd
                    · have hout : ∀ k, s.exited (.processor k) = true := by
                        simpa using hprocessors
                      exact hexit _ (hidle _ hv) ⟨hout _, hout _, hch⟩

end Sys

/-- **After the signal the process ends.** In every endless run that begins with the
signal out, in which the process is not started anew, no poller lets its change pass, and
those who can go on do, there is a point from which on all eight services have left,
nobody is in a round and no message is left in the channel. -/
theorem graceful_shutdown_completes (hW : W.Responsive) (p : (system lib W).Path)
    (h : (system lib W).Reachable (p.state 0)) (hsd : (p.state 0).shutdown = true)
    (hlive : Undisturbed p) (hprompt : Prompt p) (hwilling : Willing p) :
    ∃ k, ∀ j, k ≤ j → (∀ v, (p.state j).exited v = true ∧ (p.state j).running v = none) ∧
      (p.state j).shared.channel = [] := by
  obtain ⟨k, hk⟩ := Filter.eventually_atTop.mp (eventually_quiet h hlive hprompt)
  refine ⟨k, fun j hj => ?_⟩
  have hout : ∀ v, (p.state j).exited v = true := by
    intro v
    by_contra hv
    obtain ⟨n, v', hn, hby⟩ := hwilling j
      (Sys.exists_step_of_shutdown hW (path_reachable h j) (shutdown_mono hlive hsd j)
        (Bool.not_eq_true _ ▸ hv))
    exact absurd hby (Bool.eq_false_iff.mp (hk n (hj.trans hn) v'))
  have hord := orderly_of_reachable (path_reachable h j)
  exact ⟨fun v => ⟨hout v, hord.stopped v (hout v)⟩, (hord.drained (hout _)).1⟩

/-- With nobody in a round and the channel drained, all services leave, one after the
other. -/
theorem Sys.exists_run_leave {s : Sys W} (hidle : ∀ v, s.idle v) (hsd : s.shutdown = true)
    (hch : s.shared.channel = []) :
    ∃ t, (system lib W).Run s (services.map .exit) t ∧ ∀ v, t.exited v = true := by
  obtain ⟨config, shared, cursor, running, exited, shutdown⟩ := s
  obtain rfl : running = fun _ => none := funext fun v => (hidle v).1
  obtain rfl : exited = fun _ => false := funext fun v => (hidle v).2
  obtain rfl : shutdown = true := hsd
  refine ⟨_, .cons (.exit ⟨rfl, rfl⟩ rfl) <| .cons (.exit ⟨rfl, rfl⟩ rfl) <|
    .cons (.exit ⟨rfl, rfl⟩ rfl) <| .cons (.exit ⟨rfl, rfl⟩ rfl) <|
    .cons (.exit ⟨rfl, rfl⟩ rfl) <| .cons (.exit ⟨rfl, rfl⟩ rfl) <|
    .cons (.exit ⟨rfl, rfl⟩ ⟨rfl, rfl, hch⟩) <| .cons (.exit ⟨rfl, rfl⟩ (Or.inl rfl)) .nil, ?_⟩
  rintro ((_ | _ | _ | _) | (_ | _) | _ | _) <;> rfl

/-- Nobody but the sender begins a round, and nobody starts the process anew. -/
def Label.drains : Label → Bool
  | .start (.send _) => true
  | .start _ => false
  | .restart _ => false
  | _ => true

/-- A run that drains the channel, and then the services leaving, goes on for ever with
nothing left to do. -/
theorem Sys.exists_path_drained {s m : Sys W} {ls : List Label} (hrun : (system lib W).Run s ls m)
    (hdrains : ∀ l ∈ ls, l.drains = true) (hidle : ∀ v, m.idle v) (hsd : m.shutdown = true)
    (hch : m.shared.channel = []) (hreach : (system lib W).Reachable s)
    (htick : ∀ w, W.tick w w) :
    ∃ p : (system lib W).Path, p.state 0 = s ∧ Undisturbed p ∧ Prompt p ∧ Willing p := by
  have hleaves : ∃ t, (system lib W).Run m (services.map .exit) t ∧ ∀ v, t.exited v = true :=
    m.exists_run_leave hidle hsd hch
  obtain ⟨t, hleave, hout⟩ := hleaves
  have hall := hrun.append hleave
  obtain ⟨p, hfirst, hticks, hlabels⟩ := hall.path (.tick (htick _))
  have hlabel : ∀ k, p.label k = .tick ∨ (p.label k).drains = true := by
    intro k
    rcases Nat.lt_or_ge k (ls ++ services.map Label.exit).length with hk | hk
    · right
      rw [hlabels k hk]
      rcases List.mem_append.mp (List.getElem_mem hk) with hl | hl
      · exact hdrains _ hl
      · obtain ⟨v, -, hv⟩ := List.mem_map.mp hl
        rw [← hv]
        rfl
    · exact Or.inl (hticks k hk).2
  refine ⟨p, hfirst, ?_, ?_, ?_⟩
  · intro k
    rcases hlabel k with hk | hk
    · rw [hk]
      rfl
    · cases hl : p.label k <;> first | rfl | (rw [hl] at hk; cases hk)
  · intro i j v job _ _ hstart hv
    rcases hlabel j with hj | hj
    · rw [hj] at hstart
      cases hstart
    · rw [hstart] at hj
      cases job <;> first | exact hv.symm | cases hj
  · rintro k ⟨v, l, u, hstep, hby⟩
    rcases Nat.lt_or_ge k (ls ++ services.map Label.exit).length with hk | hk
    · -- the checker is the last to leave
      have hlast : p.label ((ls ++ services.map Label.exit).length - 1) = .exit .fcr_checker := by
        rw [hlabels _ (by omega)]
        simp [services]
      refine ⟨_, .fcr_checker, Nat.le_sub_one_of_lt hk, ?_⟩
      rw [hlast]
      rfl
    · rw [(hticks k hk).1] at hstep
      have hord := orderly_of_reachable (hall.reachable hreach)
      rw [hord.not_by hstep.1 (hout v)] at hby
      cases hby

namespace Deployment

/-- Block 100 has a log for each bridge, and all contracts can be reached. -/
def relayingTwo : Oracle World.any := fun w r =>
  match r with
  | .connect url => relay true w (.connect url)
  | .view call => relay true w (.view call)
  | .send id sender call => relay true w (.send id sender call)
  | .getReceipt tx => relay true w (.getReceipt tx)
  | r => twoLogs w r

/-- Two rows are stored and claimed, and the sender has begun with the first one. -/
def halfSent : List Service :=
  List.replicate 5 (.indexer .ETHAmb) ++ List.replicate 5 (.indexer .ETHXdai) ++
    List.replicate 4 (.processor .msg_processor_1) ++
    List.replicate 4 (.processor .msg_processor_2) ++ List.replicate 2 .on_chain_sender

end Deployment

/-- The signal comes with a message in the channel and another one under way. -/
theorem graceful_shutdown_completes_draining :
    ∃ (p : (system Deployment.externals World.any).Path) (k : Nat),
      (p.state 0).shutdown = true ∧ (p.state 0).shared.channel ≠ [] ∧
      (p.state 0).running .on_chain_sender ≠ none ∧ ∀ j, k ≤ j →
        (∀ v, (p.state j).exited v = true ∧ (p.state j).running v = none) ∧
          (p.state j).shared.channel = [] := by
  have hW : World.any.Responsive := by
    intro w r
    exact ⟨(Deployment.lookups (.repeatByte 32 0xbb) () r).1, (), trivial⟩
  obtain ⟨ls, s, hrun, hp⟩ := Sys.exists_of_playSchedule
    (s := Sys.boot Deployment.config Db.empty ()) Deployment.halfSent
    (fun q => !q.2.shared.channel.isEmpty && (q.2.running .on_chain_sender).isSome &&
      (Sys.playSchedule Deployment.externals Deployment.relayingTwo { q.2 with shutdown := true }
        (List.replicate 16 .on_chain_sender)).any fun q' =>
          q'.1.all Label.drains && services.all (fun v => (q'.2.running v).isNone &&
            !q'.2.exited v) && q'.2.shutdown && q'.2.shared.channel.isEmpty)
    (World.any_truthful Deployment.relayingTwo)
    (show (Sys.playSchedule Deployment.externals _ _ _).any _ = true by decide +kernel)
  simp only [Bool.and_eq_true, Bool.not_eq_eq_eq_not, Bool.not_true, List.isEmpty_eq_false_iff,
    Option.isSome_iff_ne_none] at hp
  obtain ⟨⟨hch, hsending⟩, hp⟩ := hp
  -- from the signal on the sender alone drains the channel, and then all leave
  obtain ⟨ls', m, hrun', hp'⟩ := Sys.exists_of_playSchedule (List.replicate 16 .on_chain_sender) _
    (World.any_truthful Deployment.relayingTwo) hp
  simp only [Bool.and_eq_true, List.all_eq_true, Option.isNone_iff_eq_none, Bool.not_eq_eq_eq_not,
    Bool.not_true, List.isEmpty_iff] at hp'
  obtain ⟨⟨⟨hdrains, hidle⟩, hsd⟩, hdrained⟩ := hp'
  have hreach : (system Deployment.externals World.any).Reachable { s with shutdown := true } :=
    Machine.Reachable.step ⟨_, ls, ⟨Deployment.config, (), trivial, rfl⟩, hrun⟩ .signal
  obtain ⟨p, hfirst, hlive, hprompt, hwilling⟩ := Sys.exists_path_drained hrun' hdrains
    (fun v => hidle v (mem_services v)) hsd hdrained hreach (fun _ => trivial)
  have hsignal : (p.state 0).shutdown = true := by rw [hfirst]
  obtain ⟨k, hk⟩ := graceful_shutdown_completes hW p (hfirst ▸ hreach) hsignal hlive hprompt
    hwilling
  refine ⟨p, k, hsignal, ?_, ?_, hk⟩
  · rw [hfirst]
    exact hch
  · rw [hfirst]
    exact hsending

end BridgeValidator
