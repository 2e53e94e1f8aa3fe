import BridgeValidator.RowSteps

/-!
# The world with its transactions

What becomes of the transactions the sender hands over, and the one thing
assumed of the home bridge: after a successful `submitSignature` the view
`messagesSigned` reads `true` for the pair of validator and message. All other
answers are as free as in `World.any`.
-/

namespace BridgeValidator

open Interaction

/-! ## Transactions -/

/-- A transaction on its way or, with its execution status, in a block. -/
structure ChainTx where
  row : Int
  sender : Address
  call : TxCall
  status : Option Bool
deriving DecidableEq

namespace ChainTx

def mined (tx : ChainTx) (status : Bool) : ChainTx := { tx with status := some status }

/-- A `submitSignature` that was executed successfully. -/
def submits (tx : ChainTx) : Bool :=
  tx.status == some true && tx.call matches .submitSignature ..

/-- It made the bridge set the flag under this `hashSender`. -/
def signs (lib : Externals) (bridge : Bridge) (contract : Address) (hashSender : B256)
    (tx : ChainTx) : Bool :=
  tx.status == some true && match tx.call with
    | .submitSignature bridge' contract' _ message =>
        decide (bridge' = bridge ∧ contract' = contract ∧
          lib.keccak256 (tx.sender.bytes ++ (lib.keccak256 message).bytes) = hashSender)
    | _ => false

/-- A pending transaction may be mined, a mined one stays what it is. -/
inductive Settles : ChainTx → ChainTx → Prop
  | same {tx} : Settles tx tx
  | mined {tx} (h : tx.status = none) (status : Bool) : Settles tx (tx.mined status)

end ChainTx

/-- A transaction is known by its place in the list. Handing one over can fail
in the answer only, and waiting for a receipt gives it time to be mined. -/
def World.chains (lib : Externals) : World where
  State := List ChainTx
  init w := w = []
  rpc w r x w' := match r, x with
    | .send row sender call, .ok tx => tx = w.length ∧ w' = w ++ [⟨row, sender, call, none⟩]
    | .send row sender call, .error _ => w' = w ∨ w' = w ++ [⟨row, sender, call, none⟩]
    | .getReceipt tx, .ok receipt => List.Forall₂ ChainTx.Settles w w' ∧
        (w'[tx]?).bind ChainTx.status = some receipt.status
    | .view (.messagesSigned bridge contract hashSender), .ok signed =>
        w' = w ∧ (w.any (ChainTx.signs lib bridge contract hashSender) = true → signed = true)
    | _, _ => w' = w
  tick := List.Forall₂ ChainTx.Settles

variable {lib : Externals}

namespace Sys

/-- All transactions handed over so far. -/
def txs (s : Sys (World.chains lib)) : List ChainTx := s.shared.world

/-- A `submitSignature` of this validator for the row was mined successfully. -/
def submitted (s : Sys (World.chains lib)) (id : Int) : Bool :=
  s.txs.any fun tx => tx.row == id && tx.submits

end Sys

/-! ## What happens to transactions -/

/-- What an answer can do to the list of transactions. -/
theorem World.chains_rpc {w w' : List ChainTx} {r : Rpc} {x : r.Ans}
    (h : (World.chains lib).rpc w r x w') :
    List.Forall₂ ChainTx.Settles w w' ∨
      ∃ row sender call, r = .send row sender call ∧ w' = w ++ [⟨row, sender, call, none⟩] := by
  have hsame : w' = w → List.Forall₂ ChainTx.Settles w w' := by
    rintro rfl
    exact List.forall₂_same.mpr fun _ _ => .same
  cases r with
  | send row sender call =>
      cases x with
      | ok tx => exact Or.inr ⟨row, sender, call, rfl, h.2⟩
      | error e => exact h.imp hsame fun h => ⟨row, sender, call, rfl, h⟩
  | getReceipt tx =>
      cases x with
      | ok receipt => exact Or.inl h.1
      | error e => exact Or.inl (hsame h)
  | view call =>
      cases call with
      | messagesSigned bridge contract hashSender =>
          cases x with
          | ok signed => exact Or.inl (hsame h.1)
          | error e => exact Or.inl (hsame h)
      | _ => exact Or.inl (hsame h)
  | _ => exact Or.inl (hsame h)

namespace ChainTx

variable {w w' : List ChainTx}

/-- What is mined stays. -/
theorem mem_of_settles (h : List.Forall₂ Settles w w') {tx : ChainTx} (htx : tx ∈ w)
    (hmined : tx.status ≠ none) : tx ∈ w' := by
  induction h with
  | nil => cases htx
  | @cons a b l₁ l₂ hab _ ih =>
      rcases List.mem_cons.mp htx with rfl | htx
      · cases hab with
        | same => exact List.mem_cons_self
        | mined hpending status => exact absurd hpending hmined
      · exact List.mem_cons_of_mem _ (ih htx)

theorem Settles.row_eq {tx tx' : ChainTx} (h : Settles tx tx') : tx'.row = tx.row := by
  cases h <;> rfl

end ChainTx

/-! ## Transactions are for rows there have been -/

namespace Sys

/-- Only the sender hands over transactions, for the row it works on. -/
theorem sender_of_send {W : World} {s t : Sys W} {v : Service} {row : Int} {sender : Address}
    {call : TxCall} {x : Except String Nat} (hs : s.Coherent lib)
    (h : s.Step lib (.call v ⟨.rpc (.send row sender call), x⟩) t) :
    v = .on_chain_sender ∧ ∃ r data, s.running .on_chain_sender = some r ∧
      r.job = .send data ∧ data.event_log_id = row := by
  cases h with
  | @call _ r _ k _ sh hr hrest hans =>
      obtain ⟨rfl, data, hjob, hrow⟩ := hs.sender_allows hr hrest rfl
      exact ⟨rfl, r, data, hr, hjob, hrow.symm⟩

/-- What a step is to the sender. -/
inductive SenderStep (lib : Externals) {W : World} (s : Sys W) : Label → Sys W → Prop
  | others {l t} (hrunning : t.running .on_chain_sender = s.running .on_chain_sender)
      (hl : ∀ e, l ≠ .call .on_chain_sender e) : SenderStep lib s l t
  | recv {data rest} (hidle : s.idle .on_chain_sender) (hch : s.shared.channel = data :: rest) :
      SenderStep lib s (.start (.send data)) (s.popChannel.begin lib (.send data))
  | call {r o k x sh} (hr : s.running .on_chain_sender = some r) (hrest : r.rest = Prog.call o k)
      (hans : s.shared.Answers o x sh) :
      SenderStep lib s (.call .on_chain_sender ⟨o, x⟩)
        (s.advance .on_chain_sender r ⟨o, x⟩ (k x) sh)
  | finish {r result} (hr : s.running .on_chain_sender = some r)
      (hrest : r.rest = Prog.pure (.ok result)) :
      SenderStep lib s (.finish .on_chain_sender) (s.done .on_chain_sender r.job result)
  | ends {l t} (hends : l.ends = true) (hrunning : t.running .on_chain_sender = none) :
      SenderStep lib s l t

theorem Step.sender {W : World} {s t : Sys W} {l : Label} (h : s.Step lib l t) :
    SenderStep lib s l t := by
  cases h with
  | index hidle => exact .others (running_begin (by simp [Job.service])) (by simp)
  | process hidle hsd => exact .others (running_begin (by simp [Job.service])) (by simp)
  | recv hidle hch => exact .recv hidle hch
  | check hidle hfcr => exact .others (running_begin (by simp [Job.service])) (by simp)
  | @call v r o k x sh hr hrest hans =>
      by_cases hv : v = .on_chain_sender
      · subst hv
        exact .call hr hrest hans
      · exact .others (running_advance (Ne.symm hv)) (by simp [hv])
  | @finish v r result hr hrest =>
      by_cases hv : v = .on_chain_sender
      · subst hv
        exact .finish hr hrest
      · exact .others (running_done (Ne.symm hv)) (by simp)
  | panic hr hrest => exact .ends rfl rfl
  | exit hidle hexit => exact .others rfl (by simp)
  | signal => exact .others rfl (by simp)
  | tick h => exact .others rfl (by simp)
  | restart => exact .ends rfl rfl

/-- The sender's pass over the row, if it is in one. -/
def passOver {W : World} (s : Sys W) (id : Int) : Option (Running × SenderData) :=
  match s.running .on_chain_sender with
  | none => none
  | some r =>
      match r.job with
      | .send data => if data.event_log_id = id then some (r, data) else none
      | _ => none

section

variable {W : World} {s t : Sys W} {l : Label} {id : Int} {r : Running} {data : SenderData}

theorem passOver_iff : s.passOver id = some (r, data) ↔
      s.running .on_chain_sender = some r ∧ r.job = .send data ∧ data.event_log_id = id := by
  unfold passOver
  cases hr : s.running .on_chain_sender with
  | none => simp
  | some r' =>
      cases hjob : r'.job with
      | send data' =>
          simp only [hjob, Option.ite_none_right_eq_some, Option.some.injEq, Prod.mk.injEq]
          constructor
          · rintro ⟨hid, rfl, rfl⟩
            exact ⟨rfl, hjob, hid⟩
          · rintro ⟨rfl, hjob', hid⟩
            rw [hjob] at hjob'
            cases hjob'
            exact ⟨hid, rfl, rfl⟩
      | _ =>
          simp only [hjob, reduceCtorEq, false_iff, not_and]
          rintro h hjob'
          cases h
          rw [hjob] at hjob'
          cases hjob'

theorem passOver_advance {o : Op} {x : o.Ans} {rest : Action (Option Nat)}
    {sh : Shared W} (hpass : s.passOver id = some (r, data)) :
    (s.advance .on_chain_sender r ⟨o, x⟩ rest sh).passOver id =
      some (⟨r.job, r.trace ++ [⟨o, x⟩], rest⟩, data) := by
  obtain ⟨-, hjob, hid⟩ := passOver_iff.mp hpass
  exact passOver_iff.mpr ⟨running_advance_self, hjob, hid⟩

theorem passOver_congr (h : t.running .on_chain_sender = s.running .on_chain_sender) :
    t.passOver id = s.passOver id := by
  rw [passOver, passOver, h]

/-- A pass that is going on was going on before, or has just begun. -/
theorem passOver_step (hstep : s.Step lib l t) (hpass' : t.passOver id = some (r, data)) :
    (s.passOver id = some (r, data) ∧ ∀ e, l ≠ .call .on_chain_sender e) ∨
    (r.trace = [] ∧ data.claim ∈ s.waiting ∧ ∀ id, t.row? id = s.row? id) ∨
    ∃ r₀ o x, s.passOver id = some (r₀, data) ∧ l = .call .on_chain_sender ⟨o, x⟩ ∧
      r.trace = r₀.trace ++ [⟨o, x⟩] := by
  obtain ⟨hr, hjob, hid⟩ := passOver_iff.mp hpass'
  cases hstep.sender with
  | others hrunning hl => exact Or.inl ⟨(passOver_congr hrunning).symm.trans hpass', hl⟩
  | @recv data' rest hidle hch =>
      simp only [Sys.begin, Job.service, Function.update_self, Option.some.injEq] at hr
      subst hr
      obtain rfl : data' = data := by simpa using hjob
      exact Or.inr (Or.inl ⟨rfl, by simp [waiting, hch], fun _ => rfl⟩)
  | @call r₀ o k x sh hr₀ hrest hans =>
      obtain rfl := Option.some.inj (running_advance_self.symm.trans hr)
      exact Or.inr (Or.inr ⟨r₀, o, x, passOver_iff.mpr ⟨hr₀, hjob, hid⟩, rfl, rfl⟩)
  | finish hr₀ hrest => simp [Sys.done] at hr
  | ends hends hrunning =>
      rw [hrunning] at hr
      cases hr

end

/-- What a step does to the transactions. -/
theorem Step.txs {s t : Sys (World.chains lib)} {l : Label} (h : s.Step lib l t) :
    List.Forall₂ ChainTx.Settles s.txs t.txs ∨ ∃ v row sender call x,
      l = .call v ⟨.rpc (.send row sender call), x⟩ ∧
      t.txs = s.txs ++ [⟨row, sender, call, none⟩] := by
  have hsame : t.txs = s.txs → List.Forall₂ ChainTx.Settles s.txs t.txs := by
    intro heq
    rw [heq]
    exact List.forall₂_same.mpr fun _ _ => .same
  cases h with
  | call hr hrest hans =>
      cases hans with
      | rpc h =>
          rcases World.chains_rpc h with hsettles | ⟨row, sender, call, rfl, heq⟩
          · exact Or.inl hsettles
          · exact Or.inr ⟨_, row, sender, call, _, rfl, heq⟩
      | _ => exact Or.inl (hsame rfl)
  | tick h => exact Or.inl h
  | _ => exact Or.inl (hsame rfl)

/-- A submission that is mined stays mined. -/
theorem Step.submitted_mono {s t : Sys (World.chains lib)} {l : Label} {id : Int}
    (h : s.Step lib l t) (hs : s.submitted id = true) : t.submitted id = true := by
  obtain ⟨tx, htx, hsub⟩ := List.any_eq_true.mp hs
  refine List.any_eq_true.mpr ⟨tx, ?_, hsub⟩
  rcases h.txs with hsettles | ⟨v, row, sender, call, x, -, heq⟩
  · refine ChainTx.mem_of_settles hsettles htx fun hpending => ?_
    simp [ChainTx.submits, hpending] at hsub
  · rw [heq]
    exact List.mem_append_left _ htx

/-- Ids in transactions and in the sender's hands have been drawn. -/
structure Accounted (s : Sys (World.chains lib)) : Prop where
  known : ∀ tx ∈ s.txs, tx.row < s.shared.db.next_id
  working : ∀ r data, s.running .on_chain_sender = some r → r.job = .send data →
    data.event_log_id < s.shared.db.next_id

theorem Accounted.drawn {s : Sys (World.chains lib)} {id : Int} {r : Running}
    {data : SenderData} (hacc : s.Accounted) (hpass : s.passOver id = some (r, data)) :
    id < s.shared.db.next_id := by
  obtain ⟨hr, hjob, rfl⟩ := passOver_iff.mp hpass
  exact hacc.working r data hr hjob

theorem Accounted.step {s t : Sys (World.chains lib)} {l : Label} (h : s.Accounted)
    (hs : s.Coherent lib) (howned : s.Owned) (hstep : s.Step lib l t) : t.Accounted := by
  have hnext := hstep.next_id_le howned.keyed
  refine ⟨fun tx' htx' => ?_, fun r data hr hjob => ?_⟩
  · rcases hstep.txs with hsettles | ⟨v, row, sender, call, x, rfl, heq⟩
    · obtain ⟨tx, htx, hmined⟩ := exists_of_forall₂ hsettles htx'
      rw [hmined.row_eq]
      exact lt_of_lt_of_le (h.known tx htx) hnext
    · rw [heq] at htx'
      rcases List.mem_append.mp htx' with htx' | htx'
      · exact lt_of_lt_of_le (h.known tx' htx') hnext
      · obtain rfl := List.mem_singleton.mp htx'
        obtain ⟨-, r, data, hr, hjob, rfl⟩ := sender_of_send hs hstep
        exact lt_of_lt_of_le (h.working r data hr hjob) hnext
  · cases hstep.sender with
    | others hrunning hl =>
        exact lt_of_lt_of_le (h.working r data (hrunning ▸ hr) hjob) hnext
    | @recv data' rest hidle hch =>
        simp only [Sys.begin, Job.service, Function.update_self, Option.some.injEq] at hr
        subst hr
        obtain rfl : data' = data := by simpa using hjob
        have hmem : data'.claim ∈ s.waiting := by simp [waiting, hch]
        obtain ⟨row, hrow, -⟩ := howned.held_row (mem_held_of_waiting hmem)
        exact howned.keyed.lt_next_of_row? hrow
    | @call r' o k x sh hr' hrest hans =>
        simp only [Sys.advance, Function.update_self, Option.some.injEq] at hr
        subst hr
        exact lt_of_lt_of_le (h.working r' data hr' hjob) hnext
    | finish hr' hrest => simp [Sys.done] at hr
    | ends hends hrunning =>
        rw [hrunning] at hr
        cases hr

end Sys

theorem accounted_of_reachable {s : Sys (World.chains lib)}
    (h : (system lib (World.chains lib)).Reachable s) : s.Accounted := by
  refine h.invariant ?_ ?_
  · rintro s ⟨cfg, w, hw, rfl⟩
    refine ⟨fun tx htx => ?_, fun r data hr => by cases hr⟩
    have hnone : w = [] := hw
    subst hnone
    cases htx
  · intro s l t hreach hs hstep
    exact hs.step (coherent_of_reachable hreach) (owned_of_reachable hreach) hstep

end BridgeValidator
