import BridgeValidator.Orphans
import BridgeValidator.Shutdown

/-!
# Every claim is settled

Where nothing goes wrong and everybody who has something to do does it some time, a
claimed row is deleted or released in the end. On its way it is first in the hands of a
processor, then in the channel, and then in the hands of the sender; each of the three
phases is left, because the rounds get shorter and the channel is first in, first out.
-/

namespace BridgeValidator

open Interaction

variable {W : World} {lib : Externals}

/-- Whoever is in a round goes on with it some time, and a message is taken some time. -/
structure Diligent (p : (system lib W).Path) : Prop where
  rounds : ∀ k v, (p.state k).running v ≠ none → ∃ j, k ≤ j ∧ (p.label j).by v = true
  messages : ∀ k, (p.state k).shared.channel ≠ [] →
    ∃ j, k ≤ j ∧ (p.label j).by .on_chain_sender = true

namespace Sys

variable {s t : Sys W} {l : Label} {id : Int} {v : Service}

/-- In a round every step of the service brings it on. -/
theorem Step.left_down (h : s.Step lib l t) (hv : s.running v ≠ none) :
    (t.left v = s.left v ∨ Prog.Later (t.left v) (s.left v)) ∧
      (l.by v = true → Prog.Later (t.left v) (s.left v)) := by
  have hstart : ∀ job, l = .start job → job.service ≠ v := by
    rintro job rfl rfl
    apply hv
    cases h with
    | index hi | process hi _ | check hi _ | recv hi _ => exact hi.1
  refine ⟨(h.left_of hstart).1, fun hby => (h.left_of hstart).2 hby ?_⟩
  rintro rfl
  cases h with
  | exit hidle hexit => exact hv hidle.1

/-- How many messages are taken before the one about the row. -/
def ahead (s : Sys W) (id : Int) : Nat :=
  s.shared.channel.findIdx fun data => data.event_log_id == id

/-- A message about the row is in the channel. -/
def Queued (s : Sys W) (id : Int) : Prop := ∃ data ∈ s.shared.channel, data.event_log_id = id

theorem Queued.channel_ne (h : s.Queued id) : s.shared.channel ≠ [] := by
  obtain ⟨data, hdata, -⟩ := h
  exact List.ne_nil_of_mem hdata

/-- Messages are added at the end, and taken by the sender. -/
theorem Step.channel_eq (h : s.Step lib l t) (hl : l.ends = false) (hrecv : l.receives = false) :
    ∃ new, t.shared.channel = s.shared.channel ++ new := by
  cases h with
  | recv hidle hch => cases hrecv
  | call hr hrest hans =>
      cases hans with
      | sent hroom => exact ⟨_, rfl⟩
      | _ => exact ⟨[], (List.append_nil _).symm⟩
  | panic hr hrest => cases hl
  | restart => cases hl
  | _ => exact ⟨[], (List.append_nil _).symm⟩

theorem ahead_of_append (h : s.Queued id) {new : List SenderData}
    (heq : t.shared.channel = s.shared.channel ++ new) : t.ahead id = s.ahead id := by
  obtain ⟨data, hdata, hid⟩ := h
  have hfound : ∃ data ∈ s.shared.channel, (data.event_log_id == id) = true :=
    ⟨data, hdata, beq_iff_eq.mpr hid⟩
  rw [ahead, ahead, heq, List.findIdx_append, if_pos (List.findIdx_lt_length.mpr hfound)]

/-- What comes before a message gets less, or the sender's round shorter. -/
theorem Tended.ahead_down (h : s.Tended lib) (ht : t.Tended lib) (hstep : s.Step lib l t)
    (hl : s.Careful lib l) (hs : s.Queued id) (ht' : t.Queued id) :
    let before := (s.ahead id, s.left .on_chain_sender)
    let after := (t.ahead id, t.left .on_chain_sender)
    (after = before ∨ Prod.Lex (· < ·) Prog.Later after before) ∧
      (l.by .on_chain_sender = true → Prod.Lex (· < ·) Prog.Later after before) := by
  intro before after
  have hlive : l.ends = false := hl.not_ends h.orderly (mem_held.mpr (Or.inr (Or.inl hs)))
  cases hrecv : l.receives with
  | true =>
      have hless : t.ahead id < s.ahead id := by
        cases hstep with
        | @recv data rest hidle hch =>
            have hrest : (s.popChannel.begin lib (.send data)).shared.channel = rest := by
              simp [Sys.begin, popChannel, hch]
            have hne : (data.event_log_id == id) = false := by
              by_contra hid
              rw [Bool.not_eq_false, beq_iff_eq] at hid
              -- the message that is taken is the only one about its row
              obtain ⟨data', hdata', hid'⟩ := ht'
              have hwait : data'.claim ∈ (s.popChannel.begin lib (.send data)).waiting :=
                Multiset.mem_add.mpr (Or.inr (List.mem_map_of_mem hdata'))
              have hhand : (s.popChannel.begin lib (.send data)).inHand = some data := by
                simp [inHand, Sys.begin, Job.service, Running.inHand]
              exact ht.staged.owned.exclusive hwait hhand (hid'.trans hid.symm)
            rw [ahead, ahead, hrest, hch, List.findIdx_cons, hne]
            exact Nat.lt_succ_self _
        | _ => cases hrecv
      exact ⟨Or.inr (.left _ _ hless), fun _ => .left _ _ hless⟩
  | false =>
      obtain ⟨new, hnew⟩ := hstep.channel_eq hlive hrecv
      have hsame : t.ahead id = s.ahead id := ahead_of_append hs hnew
      have hstart : ∀ job, l = .start job → job.service ≠ .on_chain_sender := by
        rintro job rfl hservice
        rw [Label.receives, hservice] at hrecv
        cases hrecv
      obtain ⟨hkeep, hdown⟩ := hstep.left_of hstart
      refine ⟨?_, fun hby => ?_⟩
      · rcases hkeep with heq | hlater
        · exact Or.inl (Prod.ext hsame heq)
        · right
          show Prod.Lex _ _ (t.ahead id, _) _
          rw [hsame]
          exact .right _ hlater
      · show Prod.Lex _ _ (t.ahead id, _) _
        rw [hsame]
        refine .right _ (hdown hby ?_)
        rintro rfl
        cases hstep with
        | exit hidle hexit => exact hs.channel_ne hexit.2.2

theorem running_of_claimed {k : ProcessorId} {row : EventLogRow} (h : s.claimed k = some row) :
    s.running (.processor k) ≠ none := by
  intro hnone
  rw [claimed, hnone] at h
  cases h

theorem running_of_inHand {data : SenderData} (h : s.inHand = some data) :
    s.running .on_chain_sender ≠ none := by
  intro hnone
  rw [inHand, hnone] at h
  cases h

end Sys

/-! ## The three phases -/

section

variable {p : (system lib W).Path} {id : Int}

theorem tended_of_careful (h : (p.state 0).Tended lib)
    (hcareful : ∀ k, (p.state k).Careful lib (p.label k)) (k : Nat) : (p.state k).Tended lib := by
  induction k with
  | zero => exact h
  | succ k ih => exact ih.step (p.step k) (hcareful k)

/-- A processor hands its row over some time. -/
theorem exists_queued (h : ∀ k, (p.state k).Tended lib)
    (hcareful : ∀ k, (p.state k).Careful lib (p.label k)) (hd : Diligent p) {k : Nat}
    {i : ProcessorId} {row : EventLogRow} (hrow : (p.state k).claimed i = some row)
    (hid : row.id = id) : ∃ j, k ≤ j ∧ (p.state j).Queued id := by
  obtain ⟨j, hj, ⟨row', hrow', hid'⟩, hnot⟩ := p.exists_exit Prog.later_wf
    (fun s => s.left (.processor i)) (Label.by (.processor i))
    (P := fun s => ∃ row, s.claimed i = some row ∧ row.id = id) ⟨row, hrow, hid⟩
    (fun j _ hj _ => (p.step j).left_down (Sys.running_of_claimed hj.choose_spec.1))
    (fun j _ hj => hd.rounds j _ (Sys.running_of_claimed hj.choose_spec.1))
  refine ⟨j + 1, Nat.le_succ_of_le hj, ?_⟩
  rcases (h j).claimed_kept (p.step j) (hcareful j) hrow' with hkept | ⟨data, hdata, heq⟩
  · exact absurd ⟨row', hkept, hid'⟩ hnot
  · exact ⟨data, hdata, heq.trans hid'⟩

/-- The sender takes every message some time. -/
theorem exists_inHand (h : ∀ k, (p.state k).Tended lib)
    (hcareful : ∀ k, (p.state k).Careful lib (p.label k)) (hd : Diligent p) {k : Nat}
    (hqueued : (p.state k).Queued id) :
    ∃ j data, k ≤ j ∧ (p.state j).inHand = some data ∧ data.event_log_id = id := by
  obtain ⟨j, hj, ⟨data, hdata, hid⟩, hnot⟩ := p.exists_exit
    (wellFounded_lt.prod_lex Prog.later_wf)
    (fun s => (s.ahead id, s.left .on_chain_sender)) (Label.by .on_chain_sender)
    (P := fun s => s.Queued id) hqueued
    (fun j _ hj hj' => (h j).ahead_down (h (j + 1)) (p.step j) (hcareful j) hj hj')
    (fun j _ hj => hd.messages j hj.channel_ne)
  refine ⟨j + 1, data, Nat.le_succ_of_le hj, ?_, hid⟩
  rcases (h j).channel_kept (p.step j) (hcareful j) hdata with hkept | hhand
  · exact absurd ⟨data, hkept, hid⟩ hnot
  · exact hhand

/-- The sender settles what it has in hand some time. -/
theorem exists_settled (h : ∀ k, (p.state k).Tended lib)
    (hcareful : ∀ k, (p.state k).Careful lib (p.label k)) (hd : Diligent p) {k : Nat}
    {data : SenderData} (hhand : (p.state k).inHand = some data) (hid : data.event_log_id = id) :
    ∃ j, k ≤ j ∧ id ∈ (p.state j).held ∧ ((p.state (j + 1)).row? id = none ∨
      (p.state (j + 1)).row? id = ((p.state j).row? id).map EventLog.released) := by
  obtain ⟨j, hj, hhand', hnot⟩ := p.exists_exit Prog.later_wf
    (fun s => s.left .on_chain_sender) (Label.by .on_chain_sender)
    (P := fun s => s.inHand = some data) hhand
    (fun j _ hj _ => (p.step j).left_down (Sys.running_of_inHand hj))
    (fun j _ hj => hd.rounds j _ (Sys.running_of_inHand hj))
  subst hid
  refine ⟨j, hj, Sys.mem_held_of_inHand hhand', ?_⟩
  exact ((h j).inHand_kept (p.step j) (hcareful j) hhand').resolve_left hnot

end

/-- The sender deletes the row of `id`, or releases it for a retry, with this step. -/
inductive Sys.Settles (s : Sys W) (id : Int) : Label → Sys W → Prop
  | deleted {t} (hrow : t.row? id = none) :
      Settles s id (.call .on_chain_sender ⟨.db (.deleteEventLog id), .ok ()⟩) t
  | released {t r} (hr : s.row? id = some r) (hrow : t.row? id = some r.released) :
      Settles s id (.call .on_chain_sender ⟨.db (.incrementRetryCount id), .ok ()⟩) t

theorem Sys.Step.settles_of {s t : Sys W} {l : Label} {id : Int} {r : EventLog}
    (hs : s.Coherent lib) (hk : s.shared.db.Keyed) (h : s.Step lib l t)
    (hr : s.row? id = some r) (hp : r.is_processed = some true)
    (hrow : t.row? id = none ∨ t.row? id = (s.row? id).map EventLog.released) :
    s.Settles id l t := by
  have hfree : ∀ r', t.row? id = some r' → r'.is_processed ≠ some true := by
    intro r' hr' hp'
    rcases hrow with hgone | hreleased
    · rw [hgone] at hr'
      cases hr'
    · rw [hreleased, hr] at hr'
      obtain rfl := Option.some.inj hr'
      cases hp'
  have hstep := h.rowStep hs hk id
  generalize hafter : t.row? id = after at hstep
  cases hstep with
  | same _ => exact absurd hp (hfree r (hafter.trans hr))
  | inserted hid =>
      have hlt := hk.lt_next_of_row? hr
      omega
  | claimed _ _ => exact absurd rfl (hfree _ hafter)
  | staged hr' _ _ =>
      obtain rfl := Option.some.inj (hr.symm.trans hr')
      exact (hfree _ hafter hp).elim
  | released hr' _ _ => exact .released hr' hafter
  | deleted _ _ => exact .deleted hafter
  | checked hr' _ _ =>
      obtain rfl := Option.some.inj (hr.symm.trans hr')
      exact (hfree _ hafter hp).elim

/-- A claimed row goes through the phases that are left of its way. -/
theorem exists_settles {p : (system lib W).Path} (h : ∀ k, (p.state k).Tended lib)
    (hcareful : ∀ k, (p.state k).Careful lib (p.label k)) (hd : Diligent p) {k : Nat} {id : Int}
    {r : EventLog} (hr : (p.state k).row? id = some r) (hp : r.is_processed = some true) :
    ∃ j, k ≤ j ∧ (p.state j).Settles id (p.label j) (p.state (j + 1)) := by
  have hhand : ∃ j data, k ≤ j ∧ (p.state j).inHand = some data ∧ data.event_log_id = id := by
    have hqueued : ∀ j, k ≤ j → (p.state j).Queued id →
        ∃ i data, k ≤ i ∧ (p.state i).inHand = some data ∧ data.event_log_id = id := by
      intro j hj hq
      obtain ⟨i, data, hi, hhand⟩ := exists_inHand h hcareful hd hq
      exact ⟨i, data, hj.trans hi, hhand⟩
    rcases Sys.mem_held.mp ((h k).held id r hr hp) with ⟨i, row, hrow, hid⟩ | hq | ⟨data, hhand⟩
    · obtain ⟨j, hj, hq⟩ := exists_queued h hcareful hd hrow hid
      exact hqueued j hj hq
    · exact hqueued k le_rfl hq
    · exact ⟨k, data, le_rfl, hhand⟩
  obtain ⟨j, data, hj, hhand, hid⟩ := hhand
  obtain ⟨i, hi, hheld, hrow⟩ := exists_settled h hcareful hd hhand hid
  have howned := (h i).staged.owned
  obtain ⟨r', hr', hp'⟩ := howned.held_row hheld
  exact ⟨i, hj.trans hi, (p.step i).settles_of (h i).staged.coherent howned.keyed hr' hp' hrow⟩

/-- **Every claim is settled.** In every endless run over a table at rest in which nothing
goes wrong and everybody is diligent, a row that is claimed at some point is deleted or
released by the sender at a later one. -/
theorem claimed_row_is_settled {cfg : Config} {db : Db} {w : W.State}
    (p : (system lib W).Path) (hboot : p.state 0 = Sys.boot cfg db w) (hdb : db.AtRest)
    (hflags : db.SendsOn cfg) (hcareful : ∀ k, (p.state k).Careful lib (p.label k))
    (hd : Diligent p) {k : Nat} {id : Int} {r : EventLog} (hr : (p.state k).row? id = some r)
    (hp : r.is_processed = some true) :
    ∃ j, k ≤ j ∧ (p.state j).Settles id (p.label j) (p.state (j + 1)) := by
  have hstart : (p.state 0).Tended lib := hboot ▸ Sys.tended_boot hdb hflags
  exact exists_settles (tended_of_careful hstart hcareful) hcareful hd hr hp

/-! ## A run that comes to rest -/

theorem diligent_of_rest {p : (system lib W).Path} {n : Nat}
    (hlive : ∀ k, (p.label k).ends = false) (hidle : ∀ k, n ≤ k → ∀ v, (p.state k).running v = none)
    (hempty : ∀ k, n ≤ k → (p.state k).shared.channel = []) : Diligent p := by
  constructor
  · intro k v hv
    by_contra hnever
    push Not at hnever
    have hstays : ∀ j, k ≤ j → (p.state j).running v ≠ none := by
      intro j hj
      induction hj with
      | refl => exact hv
      | @step j hj ih =>
          rcases (p.step j).running_of ih with hfinish | hends | hkept
          · have hby := hnever j hj
            rw [hfinish] at hby
            exact absurd (beq_self_eq_true v) hby
          · rw [hlive j] at hends
            cases hends
          · exact hkept
    exact hstays (max k n) (le_max_left k n) (hidle _ (le_max_right k n) v)
  · intro k hne
    by_contra hnever
    push Not at hnever
    have hstays : ∀ j, k ≤ j → (p.state j).shared.channel ≠ [] := by
      intro j hj
      induction hj with
      | refl => exact hne
      | @step j hj ih =>
          have hrecv : (p.label j).receives = false := by
            cases hl : p.label j with
            | start job =>
                have hby := hnever j hj
                rw [hl] at hby
                exact Bool.eq_false_iff.mpr hby
            | _ => rfl
          obtain ⟨new, hnew⟩ := (p.step j).channel_eq (hlive j) hrecv
          rw [hnew]
          exact List.append_ne_nil_of_left_ne_nil ih _
    exact hstays (max k n) (le_max_left k n) (hempty _ (le_max_right k n))

/-- A schedule in which nothing goes wrong and no message is left over, gone on with for ever. -/
theorem Deployment.exists_path (turns : List (Turn World.any))
    (check : List Label × Sys World.any → Bool)
    (h : (Turn.playAll externals (Sys.boot config Db.empty ()) turns).any (fun q =>
      (q.1.all (fun l => smooth l && serves l) && q.2.shared.channel.isEmpty) && check q) = true) :
    ∃ (p : (system externals World.any).Path) (ls : List Label) (t : Sys World.any),
      p.state 0 = Sys.boot config Db.empty () ∧
      (∀ k, (p.state k).Careful externals (p.label k)) ∧ (∀ k, (p.label k).ends = false) ∧
      Diligent p ∧ (∀ k, ls.length ≤ k → p.state k = t ∧ p.label k = .tick) ∧
      (∀ k (hk : k < ls.length), p.label k = ls[k]) ∧ check (ls, t) = true := by
  obtain ⟨ls, t, hrun, hrest, hp⟩ := Turn.exists_of_playAll turns _ Turn.sound_any
    Sys.resting_boot h
  simp only [Bool.and_eq_true, List.all_eq_true, List.isEmpty_iff] at hp
  obtain ⟨⟨hls, hempty⟩, hcheck⟩ := hp
  obtain ⟨p, hfirst, hticks, hlabels⟩ := hrun.path (.tick trivial)
  have hlabel : ∀ k, smooth (p.label k) = true ∧ serves (p.label k) = true := by
    intro k
    rcases Nat.lt_or_ge k ls.length with hk | hk
    · rw [hlabels k hk]
      exact hls _ (List.getElem_mem hk)
    · rw [(hticks k hk).2]
      exact ⟨rfl, rfl⟩
  have hlive : ∀ k, (p.label k).ends = false := by
    intro k
    have hsmooth := (hlabel k).1
    cases hl : p.label k with
    | panic v =>
        rw [hl] at hsmooth
        cases hsmooth
    | restart cfg =>
        rw [hl] at hsmooth
        cases hsmooth
    | _ => rfl
  have hcfg : ∀ k, (p.state k).config = config := by
    intro k
    induction k with
    | zero => rw [hfirst]; rfl
    | succ k ih =>
        rw [(p.step k).config_eq (Label.isRestart_of_ends (hlive k))]
        exact ih
  refine ⟨p, ls, t, hfirst, fun k => ?_, hlive, ?_, hticks, hlabels, hcheck⟩
  · exact careful_of_smooth (hcfg k) (hlabel k).1 (hlabel k).2
  · apply diligent_of_rest hlive
    · intro k hk v
      rw [(hticks k hk).1]
      exact hrest.running v
    · intro k hk
      rw [(hticks k hk).1]
      exact hempty

/-- An affirmation, from its claim to its end. -/
theorem claimed_row_is_settled_relayed :
    ∃ (p : (system Deployment.externals World.any).Path) (k j : Nat) (r : EventLog),
      (p.state k).row? 1 = some r ∧ r.is_processed = some true ∧ k ≤ j ∧
        (p.state j).Settles 1 (p.label j) (p.state (j + 1)) := by
  obtain ⟨p, ls, t, hfirst, hcareful, -, hdiligent, -, hlabels, hclaimed⟩ :=
    Deployment.exists_path
      [.index .ETHAmb (Deployment.lookups (.repeatByte 32 0xaa)),
        .process .msg_processor_1 (Deployment.lookups (.repeatByte 32 0xaa)),
        .send (Deployment.relay true)] (fun q => q.1.any (Label.claims 1)) (by decide +kernel)
  obtain ⟨l, hl, hclaims⟩ := List.any_eq_true.mp hclaimed
  obtain ⟨k, hk, rfl⟩ := List.getElem_of_mem hl
  rw [← hlabels k hk] at hclaims
  have hreach : (system Deployment.externals World.any).Reachable (p.state k) :=
    path_reachable ⟨_, [], ⟨Deployment.config, (), trivial, hfirst⟩, .nil⟩ k
  obtain ⟨v, max, r, -, -, -, hr⟩ := (p.step k).claims (owned_of_reachable hreach).keyed hclaims
  obtain ⟨j, hj, hsettles⟩ := claimed_row_is_settled p hfirst
    ⟨Db.keyed_empty, rfl, List.forall_mem_nil _, List.forall_mem_nil _⟩ (List.forall_mem_nil _)
    hcareful hdiligent hr rfl
  exact ⟨p, k + 1, j, _, hr, rfl, hj, hsettles⟩

end BridgeValidator
