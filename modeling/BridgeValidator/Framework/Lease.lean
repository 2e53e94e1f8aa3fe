import BridgeValidator.Framework.Transition

/-!
# Leases

The life of a job that is handed out to workers: it is taken, and then retired, given back for
another try, or lost together with its worker. What has been taken has come back or is out.
-/

namespace Interaction

/-- A job, with the number of times it has been given back. -/
inductive Lease where
  | new
  | free (tries : Nat)
  | held (tries : Nat)
  | lost (tries : Nat)
  | done
deriving DecidableEq, Repr

namespace Lease

inductive Turn where
  /-- the name is used up for no job -/
  | skip
  | add
  | take
  | giveBack
  | retire
  | lose
deriving DecidableEq, Repr

def next : Lease → Turn → Option Lease
  | .new, .skip => some .done
  | .new, .add => some (.free 0)
  | .free n, .take => some (.held n)
  | .held n, .giveBack => some (.free (n + 1))
  | .held _, .retire => some .done
  | .held n, .lose => some (.lost n)
  | _, _ => none

def machine : Machine Lease Turn where
  init s := s = .new
  step s e t := s.next e = some t

/-- Takes that have not come back. -/
def out : Lease → Nat
  | .held _ => 1
  | .lost _ => 1
  | _ => 0

def tries : Lease → Option Nat
  | .free n => some n
  | .held n => some n
  | .lost n => some n
  | _ => none

/-- What the turns so far have to do with where the job is. -/
structure Ledger (es : List Turn) (t : Lease) : Prop where
  takes : es.count .take = es.count .giveBack + es.count .retire + t.out
  tries : ∀ n, t.tries = some n → es.count .giveBack = n ∧ es.count .retire = 0
  retires : es.count .retire ≤ 1
  fresh : t = .new → es = []

variable {s t : Lease} {e : Turn} {es : List Turn}

theorem Ledger.step (h : Ledger es s) (hstep : s.next e = some t) : Ledger (es ++ [e]) t := by
  obtain ⟨htakes, htries, hretires, hfresh⟩ := h
  cases s with
  | new =>
      obtain rfl := hfresh rfl
      cases e with
      | skip | add =>
          obtain rfl := Option.some.inj hstep
          constructor <;> simp [out, Lease.tries]
      | _ => cases hstep
  | free n =>
      obtain ⟨hback, hnone⟩ := htries n rfl
      cases e with
      | take =>
          obtain rfl := Option.some.inj hstep
          constructor <;> simp_all [out, Lease.tries]
      | _ => cases hstep
  | held n =>
      obtain ⟨hback, hnone⟩ := htries n rfl
      cases e with
      | giveBack | retire | lose =>
          obtain rfl := Option.some.inj hstep
          constructor <;> simp_all [out, Lease.tries]
      | _ => cases hstep
  | lost n | done => cases hstep

/-- A job that is not there yet, or not any more, has nothing in its ledger. -/
theorem ledger_nil (h : s.tries = none) : Ledger [] s := by
  constructor
  · cases s <;> first | rfl | cases h
  · intro n hn
    rw [h] at hn
    cases hn
  · exact Nat.zero_le _
  · exact fun _ => rfl

/-- **The ledger of a job**: takes are give-backs, retirements and what is out. -/
theorem ledger_of_run (hs : s.tries = none) (h : machine.Run s es t) : Ledger es t := by
  induction h with
  | nil => exact ledger_nil hs
  | snoc _ hstep ih => exact ih.step hstep

end Lease

end Interaction
