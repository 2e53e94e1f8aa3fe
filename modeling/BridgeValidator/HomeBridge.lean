import BridgeValidator.System
import BridgeValidator.XdaiMessage

/-!
# The home bridge

What a validator attests on the home bridge and what the views of the bridge read. A
flag is set by a successful transaction of this validator and by nothing else; the
counters and the threshold belong to everybody and may change at any time. The flags are
kept under packed hashes, so reading one gives the flag of the very validator and
message only where `keccak256` has no collision.
-/

namespace BridgeValidator

open Interaction

/-! ## Attestations -/

/-- What is attested, with the bridge it is attested on. -/
inductive Subject where
  | ambAffirmation (message : Bytes)
  | xdaiAffirmation (recipient : Address) (value : U256) (nonce : B256)
  | signature (bridge : Bridge) (message : Bytes)
deriving DecidableEq

namespace Subject

def bridge : Subject → Bridge
  | .ambAffirmation _ => .amb
  | .xdaiAffirmation .. => .xdai
  | .signature bridge _ => bridge

/-- Its flag is one of `messagesSigned`, not of `affirmationsSigned`. -/
def isSignature : Subject → Bool
  | .signature .. => true
  | _ => false

/-- The bytes under `hashMsg`. -/
def preimage : Subject → Bytes
  | .ambAffirmation message => message
  | .xdaiAffirmation recipient value nonce => recipient.bytes ++ toBeBytes value ++ nonce.bytes
  | .signature _ message => message

end Subject

/-- The pair of validator and message, at one contract. -/
structure Attestation where
  contract : Address
  validator : Address
  subject : Subject
deriving DecidableEq

/-- What a transaction of `sender` attests. -/
def TxCall.attests (sender : Address) : TxCall → Option Attestation
  | .ambExecuteAffirmation contract message => some ⟨contract, sender, .ambAffirmation message⟩
  | .xdaiExecuteAffirmation contract recipient value nonce =>
      some ⟨contract, sender, .xdaiAffirmation recipient value nonce⟩
  | .submitSignature bridge contract _ message =>
      some ⟨contract, sender, .signature bridge message⟩
  | _ => none

namespace Attestation

variable (lib : Externals) (a : Attestation)

def hashMsg : B256 := lib.keccak256 a.subject.preimage

/-- The bytes under `hashSender`. -/
def senderPreimage : Bytes := a.validator.bytes ++ (a.hashMsg lib).bytes

def hashSender : B256 := lib.keccak256 (a.senderPreimage lib)

/-- All that is hashed for one attestation. -/
def preimages : List Bytes := [a.subject.preimage, a.senderPreimage lib]

/-- The flag has been read. -/
def flagEvent (x : Bool) : Event Calls :=
  if a.subject.isSignature then
    ⟨.rpc (.view (.messagesSigned a.subject.bridge a.contract (a.hashSender lib))), .ok x⟩
  else ⟨.rpc (.view (.affirmationsSigned a.subject.bridge a.contract (a.hashSender lib))), .ok x⟩

/-- The counter has been read. -/
def counterEvent (signed : U256) : Event Calls :=
  if a.subject.isSignature then
    ⟨.rpc (.view (.numMessagesSigned a.subject.bridge a.contract (a.hashMsg lib))), .ok signed⟩
  else
    ⟨.rpc (.view (.numAffirmationsSigned a.subject.bridge a.contract (a.hashMsg lib))), .ok signed⟩

/-- The threshold has been read. -/
def thresholdEvent (required : U256) : Event Calls :=
  ⟨.rpc (.view (.requiredSignatures a.subject.bridge a.contract)), .ok required⟩

end Attestation

/-! ## Packed preimages -/

/-- No two of the preimages of these attestations have one hash. -/
def CollisionFree (lib : Externals) (l : List Attestation) : Prop :=
  ∀ x ∈ l.flatMap (Attestation.preimages lib), ∀ y ∈ l.flatMap (Attestation.preimages lib),
    lib.keccak256 x = lib.keccak256 y → x = y

/-- On one bridge, affirmations among themselves and signatures among themselves are
told apart by what is packed. -/
theorem Subject.eq_of_preimage {x y : Subject} (hbridge : x.bridge = y.bridge)
    (hkind : x.isSignature = y.isSignature) (h : x.preimage = y.preimage) : x = y := by
  cases x with
  | ambAffirmation m =>
      cases y with
      | ambAffirmation m' => exact congrArg _ h
      | xdaiAffirmation => cases hbridge
      | signature => cases hkind
  | xdaiAffirmation recipient value nonce =>
      cases y with
      | ambAffirmation => cases hbridge
      | xdaiAffirmation recipient' value' nonce' =>
          simp only [preimage] at h
          have hlen : (recipient.bytes ++ toBeBytes value).length =
              (recipient'.bytes ++ toBeBytes value').length := by
            simp [recipient.size_eq, recipient'.size_eq, length_toBeBytes]
          obtain ⟨hfront, hnonce⟩ := List.append_inj h hlen
          obtain ⟨hrecipient, hvalue⟩ := List.append_inj hfront
            (recipient.size_eq.trans recipient'.size_eq.symm)
          rw [FixedBytes.ext_bytes hrecipient, toBeBytes_injective hvalue,
            FixedBytes.ext_bytes hnonce]
      | signature => cases hkind
  | signature bridge m =>
      cases y with
      | ambAffirmation => cases hkind
      | xdaiAffirmation => cases hkind
      | signature bridge' m' =>
          obtain rfl : bridge = bridge' := hbridge
          exact congrArg _ h

/-- **The packed hashes tell attestations apart** where `keccak256` does. -/
theorem Attestation.eq_of_hashSender {lib : Externals} {l : List Attestation}
    (hfree : CollisionFree lib l) {a b : Attestation} (ha : a ∈ l) (hb : b ∈ l)
    (hbridge : a.subject.bridge = b.subject.bridge) (hcontract : a.contract = b.contract)
    (hkind : a.subject.isSignature = b.subject.isSignature)
    (h : a.hashSender lib = b.hashSender lib) : a = b := by
  have hmem : ∀ {c : Attestation} {x : Bytes}, c ∈ l → x ∈ c.preimages lib →
      x ∈ l.flatMap (Attestation.preimages lib) :=
    fun hc hx => List.mem_flatMap.mpr ⟨_, hc, hx⟩
  have hsender : a.senderPreimage lib = b.senderPreimage lib :=
    hfree _ (hmem ha (by simp [preimages])) _ (hmem hb (by simp [preimages])) h
  obtain ⟨hvalidator, hhash⟩ := List.append_inj hsender
    (a.validator.size_eq.trans b.validator.size_eq.symm)
  have hpreimage : a.subject.preimage = b.subject.preimage :=
    hfree _ (hmem ha (by simp [preimages])) _ (hmem hb (by simp [preimages]))
      (FixedBytes.ext_bytes hhash)
  obtain ⟨contract, validator, subject⟩ := a
  obtain ⟨contract', validator', subject'⟩ := b
  obtain rfl := FixedBytes.ext_bytes hvalidator
  obtain rfl := Subject.eq_of_preimage hbridge hkind hpreimage
  obtain rfl : contract = contract' := hcontract
  rfl

/-! ## Transactions and what they leave behind -/

inductive Fate where
  | pending
  | mined (status : Bool)
  | dropped
deriving DecidableEq

/-- A transaction the sender handed over. -/
structure HomeTx where
  sender : Address
  call : TxCall
  fate : Fate
deriving DecidableEq

namespace HomeTx

def attests (tx : HomeTx) : Option Attestation := tx.call.attests tx.sender

/-- It was executed successfully and attests `a`. -/
def sets (a : Attestation) (tx : HomeTx) : Bool :=
  tx.fate == .mined true && tx.attests == some a

/-- It attests `a` or may yet do so. -/
def mayAttest (a : Attestation) (tx : HomeTx) : Bool :=
  (tx.fate == .pending || tx.fate == .mined true) && tx.attests == some a

/-- Time passes: what is pending may be mined, with either status, or dropped. -/
inductive Settles : HomeTx → HomeTx → Prop
  | same {tx} : Settles tx tx
  | settled {tx} (h : tx.fate = .pending) {fate} (hfate : fate ≠ .pending) :
      Settles tx { tx with fate }

end HomeTx

/-- The home bridge, with the transactions of this sender in the order they were handed
over. -/
structure Home where
  txs : List HomeTx
  numAffirmationsSigned : Bridge → Address → B256 → U256
  numMessagesSigned : Bridge → Address → B256 → U256
  requiredSignatures : Bridge → Address → U256

namespace Home

/-- The flag of a validator and message: set by a successful transaction of this sender. -/
def flagged (home : Home) (a : Attestation) : Bool := home.txs.any (HomeTx.sets a)

/-- What the bridge keeps under a hash. -/
def flagAt (lib : Externals) (home : Home) (isSignature : Bool) (bridge : Bridge)
    (contract : Address) (hashSender : B256) : Bool :=
  home.txs.any fun tx => tx.fate == .mined true && tx.attests.any fun a =>
    decide (a.subject.isSignature = isSignature ∧ a.subject.bridge = bridge ∧
      a.contract = contract ∧ a.hashSender lib = hashSender)

def submit (home : Home) (sender : Address) (call : TxCall) : Home :=
  { home with txs := home.txs ++ [⟨sender, call, .pending⟩] }

/-- The transactions settle; the counters and the threshold are anybody's. -/
def Moves (home home' : Home) : Prop := List.Forall₂ HomeTx.Settles home.txs home'.txs

/-- The views read the current state. The helpers' views are not about attesting. -/
def Reads (lib : Externals) (home : Home) : (call : ViewCall) → call.Ret → Prop
  | .affirmationsSigned bridge contract hashSender, x =>
      x = home.flagAt lib false bridge contract hashSender
  | .messagesSigned bridge contract hashSender, x =>
      x = home.flagAt lib true bridge contract hashSender
  | .numAffirmationsSigned bridge contract hashMsg, x =>
      x = home.numAffirmationsSigned bridge contract hashMsg
  | .numMessagesSigned bridge contract hashMsg, x =>
      x = home.numMessagesSigned bridge contract hashMsg
  | .requiredSignatures bridge contract, x => x = home.requiredSignatures bridge contract
  | _, _ => True

/-- A transaction is known by its place in the list. Handing one over can fail in the
answer only; waiting for a receipt takes time, and may be in vain. -/
def Answers (lib : Externals) (home : Home) : (r : Rpc) → r.Ans → Home → Prop
  | .send _ sender call, .ok tx, home' =>
      tx = home.txs.length ∧ home' = home.submit sender call
  | .send _ sender call, .error _, home' => home' = home ∨ home' = home.submit sender call
  | .getReceipt tx, .ok receipt, home' => home.Moves home' ∧
      (home'.txs[tx]?).map HomeTx.fate = some (.mined receipt.status)
  | .getReceipt _, .error _, home' => home.Moves home'
  | .view call, .ok x, home' => home' = home ∧ home.Reads lib call x
  | _, _, home' => home' = home

end Home

/-- The home bridge as the outside of the services. -/
def World.home (lib : Externals) : World where
  State := Home
  init home := home.txs = []
  rpc := Home.Answers lib
  tick := Home.Moves

namespace Home

variable {lib : Externals} {home home' : Home} {a : Attestation}

theorem Moves.refl : home.Moves home := List.forall₂_same.mpr fun _ _ => .same

theorem exists_of_flagged (h : home.flagged a = true) :
    ∃ tx ∈ home.txs, tx.fate = .mined true ∧ tx.attests = some a := by
  obtain ⟨tx, htx, hsets⟩ := List.any_eq_true.mp h
  simp only [HomeTx.sets, Bool.and_eq_true, beq_iff_eq] at hsets
  exact ⟨tx, htx, hsets.1, hsets.2⟩

theorem flagged_of_mem {tx : HomeTx} (htx : tx ∈ home.txs) (hfate : tx.fate = .mined true)
    (ha : tx.attests = some a) : home.flagged a = true :=
  List.any_eq_true.mpr ⟨tx, htx, by simp [HomeTx.sets, hfate, ha]⟩

/-- A set flag reads as set. -/
theorem flagAt_of_flagged (h : home.flagged a = true) :
    home.flagAt lib a.subject.isSignature a.subject.bridge a.contract (a.hashSender lib) =
      true := by
  obtain ⟨tx, htx, hfate, ha⟩ := exists_of_flagged h
  exact List.any_eq_true.mpr ⟨tx, htx, by simp [hfate, ha]⟩

/-- And without collisions, what reads as set is the flag itself. -/
theorem flagged_of_flagAt (hfree : CollisionFree lib (a :: home.txs.filterMap HomeTx.attests))
    (h : home.flagAt lib a.subject.isSignature a.subject.bridge a.contract (a.hashSender lib) =
      true) : home.flagged a = true := by
  obtain ⟨tx, htx, hread⟩ := List.any_eq_true.mp h
  simp only [Bool.and_eq_true, beq_iff_eq, Option.any_eq_true, decide_eq_true_eq] at hread
  obtain ⟨hfate, b, hb, hkind, hbridge, hcontract, hhash⟩ := hread
  have hmem : b ∈ a :: home.txs.filterMap HomeTx.attests :=
    List.mem_cons_of_mem _ (List.mem_filterMap.mpr ⟨tx, htx, hb⟩)
  obtain rfl : b = a := Attestation.eq_of_hashSender hfree hmem List.mem_cons_self hbridge
    hcontract hkind hhash
  exact flagged_of_mem htx hfate hb

/-- The answer to the view of the flag. -/
theorem Answers.flagEvent {r : Rpc} {y : r.Ans} {x : Bool} (h : home.Answers lib r y home')
    (hevent : (⟨.rpc r, y⟩ : Event Calls) = a.flagEvent lib x) :
    x = home.flagAt lib a.subject.isSignature a.subject.bridge a.contract (a.hashSender lib) := by
  unfold Attestation.flagEvent at hevent
  split at hevent
  · rename_i hkind
    cases hevent
    rw [hkind]
    exact h.2
  · rename_i hkind
    cases hevent
    rw [Bool.eq_false_iff.mpr hkind]
    exact h.2

/-- What an answer can do to the transactions. -/
theorem Answers.moves {r : Rpc} {y : r.Ans} (h : home.Answers lib r y home') :
    home.Moves home' ∨ ∃ row sender call, r = .send row sender call ∧
      home' = home.submit sender call := by
  have hsame : home' = home → home.Moves home' := by
    rintro rfl
    exact .refl
  cases r with
  | send row sender call =>
      cases y with
      | ok tx => exact Or.inr ⟨row, sender, call, rfl, h.2⟩
      | error e => exact h.imp hsame fun h => ⟨row, sender, call, rfl, h⟩
  | getReceipt tx =>
      cases y with
      | ok receipt => exact Or.inl h.1
      | error e => exact Or.inl h
  | view call =>
      cases y with
      | ok x => exact Or.inl (hsame h.1)
      | error e => exact Or.inl (hsame h)
  | _ => exact Or.inl (hsame h)

/-- What is pending was pending, and what was mined is as it was. -/
theorem Moves.back (h : home.Moves home') {tx' : HomeTx} (htx' : tx' ∈ home'.txs) :
    ∃ tx ∈ home.txs, tx'.attests = tx.attests ∧
      (tx'.fate = .pending → tx.fate = .pending) ∧
      (tx'.fate = tx.fate ∨ tx.fate = .pending) := by
  obtain ⟨tx, htx, hsettles⟩ := exists_of_forall₂ h htx'
  refine ⟨tx, htx, ?_⟩
  cases hsettles with
  | same => exact ⟨rfl, id, Or.inl rfl⟩
  | settled hpending hfate => exact ⟨rfl, fun heq => absurd heq hfate, Or.inr hpending⟩

/-- No more may attest than before. -/
theorem Moves.countP_le (h : home.Moves home') (a : Attestation) :
    home'.txs.countP (HomeTx.mayAttest a) ≤ home.txs.countP (HomeTx.mayAttest a) := by
  refine countP_le_of_forall₂ (List.Forall₂.imp (fun tx tx' hsettles => ?_) h)
  cases hsettles with
  | same => exact id
  | settled hpending hfate =>
      intro hmay
      simp only [HomeTx.mayAttest, Bool.and_eq_true] at hmay ⊢
      exact ⟨by simp [hpending], hmay.2⟩

end Home

end BridgeValidator
