import Mathlib.Data.List.Basic

/-!
# Programs that talk to a world

A program is a tree: it returns, or makes a call and goes on with the
answer. Nothing here says what an answer may be; that is the business of
whoever runs the program. Three readings of one tree are used:

- `Runs` / `Steps`: the complete and the partial traces, for any answers;
- `Follows`: a rely/guarantee check against a `Protocol` (a ghost state that
  watches the calls go by), the rule every invariant about a task in flight
  is derived from;
- `exec`: the run under a handler, which is what closed examples evaluate.

`Act` adds the two ways a program can end badly: an error that callers may
catch, and a panic that they may not.
-/

namespace Interaction

/-- The calls a program may make and the type of the answer to each. -/
structure Sig where
  Op : Type
  Ans : Op → Type

/-- A program over `S` returning an `α`. -/
inductive Prog (S : Sig) (α : Type) : Type where
  | pure (a : α)
  | call (o : S.Op) (k : S.Ans o → Prog S α)

/-- One call with its answer. -/
structure Event (S : Sig) where
  op : S.Op
  ans : S.Ans op

abbrev Trace (S : Sig) : Type := List (Event S)

variable {S T : Sig} {α β σ ε : Type}

namespace Prog

def bind : Prog S α → (α → Prog S β) → Prog S β
  | .pure a, f => f a
  | .call o k, f => .call o (fun x => (k x).bind f)

/-! ## Traces -/

theorem bind_assoc {γ : Type} (p : Prog S α) (f : α → Prog S β) (g : β → Prog S γ) :
    (p.bind f).bind g = p.bind fun a => (f a).bind g := by
  induction p with
  | pure a => rfl
  | call o k ih => exact congrArg (Prog.call o) (funext ih)

/-- `p.Runs tr a`: answered along `tr`, the program returns `a`. -/
def Runs : Prog S α → Trace S → α → Prop
  | .pure b, tr, a => tr = [] ∧ b = a
  | .call o k, tr, a => ∃ x rest, tr = ⟨o, x⟩ :: rest ∧ (k x).Runs rest a

/-- `p.Steps tr q`: after the answers in `tr`, what is left of `p` is `q`. -/
inductive Steps (p : Prog S α) : Trace S → Prog S α → Prop
  | refl : Steps p [] p
  | snoc {tr o k} (h : Steps p tr (.call o k)) (x : S.Ans o) :
      Steps p (tr ++ [⟨o, x⟩]) (k x)

@[simp] theorem runs_pure {a b : α} {tr : Trace S} :
    (Prog.pure b : Prog S α).Runs tr a ↔ tr = [] ∧ b = a := Iff.rfl

@[simp] theorem runs_call {o : S.Op} {k : S.Ans o → Prog S α} {tr : Trace S} {a : α} :
    (Prog.call o k).Runs tr a ↔ ∃ x rest, tr = ⟨o, x⟩ :: rest ∧ (k x).Runs rest a :=
  Iff.rfl

theorem runs_bind {p : Prog S α} {f : α → Prog S β} {tr : Trace S} {b : β} :
    (p.bind f).Runs tr b ↔
      ∃ tr₁ a tr₂, tr = tr₁ ++ tr₂ ∧ p.Runs tr₁ a ∧ (f a).Runs tr₂ b := by
  induction p generalizing tr with
  | pure a =>
      simp only [bind, runs_pure]
      constructor
      · intro h
        exact ⟨[], a, tr, rfl, ⟨rfl, rfl⟩, h⟩
      · rintro ⟨_, _, tr₂, rfl, ⟨rfl, rfl⟩, h⟩
        simpa using h
  | call o k ih =>
      simp only [bind, runs_call]
      constructor
      · rintro ⟨x, rest, rfl, h⟩
        obtain ⟨tr₁, a, tr₂, rfl, h₁, h₂⟩ := (ih x).mp h
        exact ⟨⟨o, x⟩ :: tr₁, a, tr₂, rfl, ⟨x, tr₁, rfl, h₁⟩, h₂⟩
      · rintro ⟨_, a, tr₂, rfl, ⟨x, rest, rfl, h₁⟩, h₂⟩
        exact ⟨x, rest ++ tr₂, rfl, (ih x).mpr ⟨rest, a, tr₂, rfl, h₁, h₂⟩⟩

/-- A complete trace of what is left extends a partial one. -/
theorem Steps.runs_append {p q : Prog S α} {tr rest : Trace S} {a : α}
    (h : p.Steps tr q) (hq : q.Runs rest a) : p.Runs (tr ++ rest) a := by
  induction h generalizing rest with
  | refl => simpa using hq
  | snoc _ x ih => simpa using ih ⟨x, rest, rfl, hq⟩

/-- A program that has come to its end has run. -/
theorem Steps.runs {p : Prog S α} {tr : Trace S} {a : α}
    (h : p.Steps tr (.pure a)) : p.Runs tr a := by
  have hnil : (Prog.pure a : Prog S α).Runs [] a := ⟨rfl, rfl⟩
  simpa using h.runs_append hnil

/-- What a program returns is decided by the answers it gets: of two complete traces
neither goes on after the other. -/
theorem Runs.unique {p : Prog S α} {tr₁ tr₂ rest₁ rest₂ : Trace S} {a b : α}
    (h₁ : p.Runs tr₁ a) (h₂ : p.Runs tr₂ b) (heq : tr₁ ++ rest₁ = tr₂ ++ rest₂) :
    tr₁ = tr₂ ∧ a = b := by
  induction p generalizing tr₁ tr₂ with
  | pure c =>
      obtain ⟨rfl, rfl⟩ := h₁
      obtain ⟨rfl, rfl⟩ := h₂
      exact ⟨rfl, rfl⟩
  | call o k ih =>
      obtain ⟨x, tr₁, rfl, h₁⟩ := h₁
      obtain ⟨y, tr₂, rfl, h₂⟩ := h₂
      simp only [List.cons_append, List.cons.injEq, Event.mk.injEq, true_and, heq_eq_eq] at heq
      obtain ⟨rfl, heq⟩ := heq
      obtain ⟨rfl, rfl⟩ := ih x h₁ h₂ heq
      exact ⟨rfl, rfl⟩

theorem Runs.det {p : Prog S α} {tr : Trace S} {a b : α} (h₁ : p.Runs tr a) (h₂ : p.Runs tr b) :
    a = b := (h₁.unique h₂ (rfl : tr ++ [] = tr ++ [])).2

/-- Where every call can be answered, every program can run. -/
theorem exists_runs (h : ∀ o, Nonempty (S.Ans o)) (p : Prog S α) : ∃ tr a, p.Runs tr a := by
  induction p with
  | pure a => exact ⟨[], a, rfl, rfl⟩
  | call o k ih =>
      obtain ⟨x⟩ := h o
      obtain ⟨tr, a, hruns⟩ := ih x
      exact ⟨⟨o, x⟩ :: tr, a, x, tr, rfl, hruns⟩

/-- What may be left later: the program after one more call, and nothing after its end. -/
inductive Later : Option (Prog S α) → Option (Prog S α) → Prop
  | call {o k} (x : S.Ans o) : Later (some (k x)) (some (.call o k))
  | ended {p} : Later none (some p)

/-- However they are answered, programs come to an end. -/
theorem later_wf : WellFounded (Later (S := S) (α := α)) := by
  have hnone : Acc Later (none : Option (Prog S α)) := ⟨none, nofun⟩
  refine ⟨fun p => ?_⟩
  cases p with
  | none => exact hnone
  | some p =>
      induction p with
      | pure a =>
          refine ⟨_, fun q hq => ?_⟩
          cases hq
          exact hnone
      | call o k ih =>
          refine ⟨_, fun q hq => ?_⟩
          cases hq with
          | call x => exact ih x
          | ended => exact hnone

/-! ## Handlers -/

/-- Run to the end under a stateful handler, recording the trace. -/
def exec (h : σ → (o : S.Op) → S.Ans o × σ) : Prog S α → σ → Trace S × α × σ
  | .pure a, s => ([], a, s)
  | .call o k, s =>
      let r := exec h (k (h s o).1) (h s o).2
      (⟨o, (h s o).1⟩ :: r.1, r.2)

/-- What a handler computes is a run. -/
theorem exec_runs (h : σ → (o : S.Op) → S.Ans o × σ) (p : Prog S α) (s : σ) :
    p.Runs (p.exec h s).1 (p.exec h s).2.1 := by
  induction p generalizing s with
  | pure a => exact ⟨rfl, rfl⟩
  | call o k ih => exact ⟨_, _, rfl, ih _ _⟩

theorem exec_seq (h : σ → (o : S.Op) → S.Ans o × σ) (p : Prog S α) (f : α → Prog S β) (s : σ) :
    ((p.bind f).exec h s).2 = ((f (p.exec h s).2.1).exec h (p.exec h s).2.2).2 := by
  induction p generalizing s with
  | pure a => rfl
  | call o k ih => exact ih _ _

/-- A handler without a state gives every call its own answer. -/
theorem ans_of_mem_exec {answer : (o : S.Op) → S.Ans o} {p : Prog S α} {e : Event S}
    (he : e ∈ (p.exec (fun (_ : Unit) o => (answer o, ())) ()).1) : e.ans = answer e.op := by
  induction p with
  | pure a => cases he
  | call o k ih =>
      rcases List.mem_cons.mp he with rfl | he
      · rfl
      · exact ih _ he

/-! ## Linking: answering the calls of one program by programs -/

/-- Replace every call by the program that answers it. -/
def interp (h : (o : S.Op) → Prog T (S.Ans o)) : Prog S α → Prog T α
  | .pure a => .pure a
  | .call o k => (h o).bind (fun x => (k x).interp h)

/-- The trace of a linked program, cut into the callers' calls: each piece is
a run of the program that answered that call. -/
inductive Linked (h : (o : S.Op) → Prog T (S.Ans o)) : Trace S → Trace T → Prop
  | nil : Linked h [] []
  | cons {o x tr₁ outer inner} : (h o).Runs tr₁ x → Linked h outer inner →
      Linked h (⟨o, x⟩ :: outer) (tr₁ ++ inner)

/-- A linked program runs as its caller does, every call answered by a run. -/
theorem runs_interp {h : (o : S.Op) → Prog T (S.Ans o)} {p : Prog S α} {tr : Trace T} {a : α} :
    (p.interp h).Runs tr a ↔ ∃ outer, p.Runs outer a ∧ Linked h outer tr := by
  induction p generalizing tr with
  | pure b =>
      constructor
      · rintro ⟨rfl, rfl⟩
        exact ⟨[], ⟨rfl, rfl⟩, .nil⟩
      · rintro ⟨_, ⟨rfl, rfl⟩, hl⟩
        cases hl
        exact ⟨rfl, rfl⟩
  | call o k ih =>
      constructor
      · intro hr
        obtain ⟨tr₁, x, tr₂, rfl, h₁, h₂⟩ := runs_bind.mp hr
        obtain ⟨outer, hout, hl⟩ := (ih x).mp h₂
        exact ⟨⟨o, x⟩ :: outer, ⟨x, outer, rfl, hout⟩, .cons h₁ hl⟩
      · rintro ⟨_, ⟨x, outer, rfl, hout⟩, hl⟩
        cases hl with
        | cons h₁ hl => exact runs_bind.mpr ⟨_, x, _, rfl, h₁, (ih x).mpr ⟨outer, hout, hl⟩⟩

/-- Calls answered by runs of the callees make a linked trace. -/
theorem Linked.of_answered {h : (o : S.Op) → Prog T (S.Ans o)} (run : S.Op → Trace T)
    {outer : Trace S} (hrun : ∀ e ∈ outer, (h e.op).Runs (run e.op) e.ans) :
    Linked h outer (outer.flatMap fun e => run e.op) := by
  induction outer with
  | nil => exact .nil
  | cons e outer ih =>
      exact .cons (hrun e List.mem_cons_self)
        (ih fun e' he' => hrun e' (List.mem_cons_of_mem _ he'))

end Prog

/-! ## Protocols

A protocol watches a program from outside. `allows` is what the program
owes, `admits` what it may assume of the answers, `next` how the ghost state
moves. -/

structure Protocol (S : Sig) (σ : Type) where
  allows : σ → S.Op → Prop
  admits : σ → (o : S.Op) → S.Ans o → Prop
  next : σ → (o : S.Op) → S.Ans o → σ

namespace Protocol

variable (P : Protocol S σ)

/-- The ghost state after a trace. -/
def after : σ → Trace S → σ
  | g, [] => g
  | g, e :: tr => after (P.next g e.op e.ans) tr

/-- Every answer of the trace is one the protocol assumes. -/
def Admitted : σ → Trace S → Prop
  | _, [] => True
  | g, e :: tr => P.admits g e.op e.ans ∧ Admitted (P.next g e.op e.ans) tr

/-- Every call of the trace is one the protocol allows. -/
def Allowed : σ → Trace S → Prop
  | _, [] => True
  | g, e :: tr => P.allows g e.op ∧ Allowed (P.next g e.op e.ans) tr

@[simp] theorem after_nil (g : σ) : P.after g [] = g := rfl

@[simp] theorem after_cons (g : σ) (e : Event S) (tr : Trace S) :
    P.after g (e :: tr) = P.after (P.next g e.op e.ans) tr := rfl

@[simp] theorem after_append (g : σ) (tr₁ tr₂ : Trace S) :
    P.after g (tr₁ ++ tr₂) = P.after (P.after g tr₁) tr₂ := by
  induction tr₁ generalizing g with
  | nil => rfl
  | cons e tr ih => exact ih _

/-- The ghost state depends on how it moves alone. -/
theorem after_congr (P' : Protocol S σ) (h : P.next = P'.next) (g : σ) (tr : Trace S) :
    P.after g tr = P'.after g tr := by
  induction tr generalizing g with
  | nil => rfl
  | cons e tr ih =>
      rw [after_cons, after_cons, h]
      exact ih _

theorem after_eq_foldl (g : σ) (tr : Trace S) :
    P.after g tr = tr.foldl (fun g e => P.next g e.op e.ans) g := by
  induction tr generalizing g with
  | nil => rfl
  | cons e tr ih => exact ih _

theorem admitted_append {g : σ} {tr₁ tr₂ : Trace S} :
    P.Admitted g (tr₁ ++ tr₂) ↔ P.Admitted g tr₁ ∧ P.Admitted (P.after g tr₁) tr₂ := by
  induction tr₁ generalizing g with
  | nil => simp [Admitted]
  | cons e tr ih => simp [Admitted, ih, and_assoc]

theorem allowed_append {g : σ} {tr₁ tr₂ : Trace S} :
    P.Allowed g (tr₁ ++ tr₂) ↔ P.Allowed g tr₁ ∧ P.Allowed (P.after g tr₁) tr₂ := by
  induction tr₁ generalizing g with
  | nil => simp [Allowed]
  | cons e tr ih => simp [Allowed, ih, and_assoc]

/-- What every allowed call has, every call of an allowed trace has. -/
theorem Allowed.forall {p : S.Op → Prop} {P : Protocol S σ} (hp : ∀ g o, P.allows g o → p o)
    {g : σ} {tr : Trace S} (h : P.Allowed g tr) : ∀ e ∈ tr, p e.op := by
  induction tr generalizing g with
  | nil =>
      intro e he
      cases he
  | cons e tr ih =>
      intro e' he'
      rcases List.mem_cons.mp he' with rfl | he'
      · exact hp g _ h.1
      · exact ih h.2 e' he'

theorem admitted_of_mem {g : σ} {tr : Trace S}
    (h : ∀ e ∈ tr, ∀ g, P.admits g e.op e.ans) : P.Admitted g tr := by
  induction tr generalizing g with
  | nil => trivial
  | cons e tr ih =>
      exact ⟨h e List.mem_cons_self g, ih fun e' he' => h e' (List.mem_cons_of_mem _ he')⟩

/-- A protocol that assumes nothing admits every trace. -/
theorem admitted_of_all (h : ∀ g o x, P.admits g o x) (g : σ) (tr : Trace S) :
    P.Admitted g tr := P.admitted_of_mem fun _ _ g => h g _ _

end Protocol

namespace Prog

/-- From ghost state `g` the program makes only allowed calls, whatever
admitted answers it gets, and returns with `Q`. -/
def Follows (P : Protocol S σ) (Q : σ → α → Prop) : σ → Prog S α → Prop
  | g, .pure a => Q g a
  | g, .call o k => P.allows g o ∧ ∀ x, P.admits g o x → Follows P Q (P.next g o x) (k x)

variable {P : Protocol S σ} {Q Q' : σ → α → Prop} {g : σ}

@[simp] theorem follows_pure {a : α} : Follows P Q g (.pure a) ↔ Q g a := Iff.rfl

@[simp] theorem follows_call {o : S.Op} {k : S.Ans o → Prog S α} :
    Follows P Q g (.call o k) ↔
      P.allows g o ∧ ∀ x, P.admits g o x → Follows P Q (P.next g o x) (k x) := Iff.rfl

theorem follows_bind {p : Prog S α} {f : α → Prog S β} {R : σ → β → Prop} :
    Follows P R g (p.bind f) ↔ Follows P (fun g a => Follows P R g (f a)) g p := by
  induction p generalizing g with
  | pure a => rfl
  | call o k ih => simp only [bind, follows_call, ih]

theorem Follows.mono {p : Prog S α} (h : Follows P Q g p) (hQ : ∀ g a, Q g a → Q' g a) :
    Follows P Q' g p := by
  induction p generalizing g with
  | pure a => exact hQ _ _ h
  | call o k ih => exact ⟨h.1, fun x hx => ih x (h.2 x hx)⟩

/-- Every program follows a protocol that allows everything. -/
theorem follows_of_allows (h : ∀ g o, P.allows g o) (p : Prog S α) :
    p.Follows P (fun _ _ => True) g := by
  induction p generalizing g with
  | pure a => trivial
  | call o k ih => exact ⟨h g o, fun x _ => ih x⟩

/-- The residual of a program that follows the protocol follows it too. -/
theorem Follows.steps {p q : Prog S α} {tr : Trace S} (h : Follows P Q g p)
    (hs : p.Steps tr q) (hadm : P.Admitted g tr) : Follows P Q (P.after g tr) q := by
  induction hs with
  | refl => exact h
  | snoc hs x ih =>
      rw [Protocol.admitted_append] at hadm
      simpa using (ih hadm.1).2 x hadm.2.1

/-- A complete run ends in the postcondition, and made only allowed calls. -/
theorem Follows.of_runs {p : Prog S α} {tr : Trace S} {a : α} (h : Follows P Q g p)
    (hr : p.Runs tr a) (hadm : P.Admitted g tr) :
    P.Allowed g tr ∧ Q (P.after g tr) a := by
  induction p generalizing g tr with
  | pure b =>
      obtain ⟨rfl, rfl⟩ := hr
      exact ⟨trivial, h⟩
  | call o k ih =>
      obtain ⟨x, rest, rfl, hr⟩ := hr
      have hk := ih x (h.2 x hadm.1) hr hadm.2
      exact ⟨⟨h.1, hk.1⟩, hk.2⟩

/-- A protocol with less to say: what is owed to `P` is owed to `P'`, which sees
the ghost state through `f`. -/
theorem Follows.project {τ : Type} {P' : Protocol S τ} {R : τ → α → Prop} (f : σ → τ)
    (hnext : ∀ g o x, P.allows g o → P'.admits (f g) o x →
      P.admits g o x ∧ P'.next (f g) o x = f (P.next g o x))
    (hallows : ∀ g o, P.allows g o → P'.allows (f g) o)
    (hret : ∀ g a, Q g a → R (f g) a) {p : Prog S α} (h : Follows P Q g p) :
    Follows P' R (f g) p := by
  induction p generalizing g with
  | pure a => exact hret g a h
  | call o k ih =>
      refine ⟨hallows g o h.1, fun x hx => ?_⟩
      obtain ⟨hadm, heq⟩ := hnext g o x h.1 hx
      rw [heq]
      exact ih x (h.2 x hadm)

/-- Linking: the caller follows its own protocol `P'`, every callee follows `P`
and keeps the two ghost states related, and so does the linked program. -/
theorem follows_interp {τ : Type} {P' : Protocol T τ} {R : τ → σ → Prop}
    {Q' : τ → α → Prop} {h : (o : T.Op) → Prog S (T.Ans o)}
    (hcall : ∀ t g o, R t g → P'.allows t o →
      Follows P (fun g' x => P'.admits t o x ∧ R (P'.next t o x) g') g (h o))
    (hret : ∀ t g a, R t g → Q' t a → Q g a) {t : τ} {p : Prog T α}
    (hp : Follows P' Q' t p) (hR : R t g) : Follows P Q g (p.interp h) := by
  induction p generalizing t g with
  | pure a => exact hret _ _ _ hR hp
  | call o k ih =>
      refine follows_bind.mpr ((hcall _ _ o hR hp.1).mono ?_)
      rintro g' x ⟨hadm, hR'⟩
      exact ih x (hp.2 x hadm) hR'

end Prog

/-- The protocol that allows everything, admits the answers in `A` and
remembers the trace. -/
def recording (A : (o : S.Op) → S.Ans o → Prop) : Protocol S (Trace S) where
  allows _ _ := True
  admits _ o x := A o x
  next tr o x := tr ++ [⟨o, x⟩]

section

variable {A : (o : S.Op) → S.Ans o → Prop}

/-- A protocol that remembers the trace does. -/
theorem Protocol.after_eq_append {P : Protocol S (Trace S)}
    (hP : ∀ g o x, P.next g o x = g ++ [⟨o, x⟩]) (g tr : Trace S) : P.after g tr = g ++ tr := by
  induction tr generalizing g with
  | nil => simp
  | cons e tr ih =>
      rw [Protocol.after_cons, ih, hP]
      simp

/-- A postcondition over the remembered trace is one over all runs. -/
theorem follows_recording {p : Prog S α} {Q : Trace S → α → Prop}
    (h : p.Follows (recording A) Q []) {tr : Trace S} {a : α} (hr : p.Runs tr a)
    (hA : ∀ e ∈ tr, A e.op e.ans) : Q tr a := by
  have hadm : (recording A).Admitted [] tr :=
    (recording A).admitted_of_mem fun e he _ => hA e he
  have hQ := (h.of_runs hr hadm).2
  rwa [Protocol.after_eq_append (fun _ _ _ => rfl)] at hQ

end

/-! ## Fallible programs -/

/-- How a program can end badly: an error is a value its caller may catch, a
panic unwinds through every caller. -/
inductive Exit (ε : Type) : Type where
  | error (e : ε)
  | panic (msg : String)
deriving DecidableEq, Repr

/-- A program that may end badly. -/
def Act (S : Sig) (ε α : Type) : Type := Prog S (Except (Exit ε) α)

namespace Act

def ret (a : α) : Act S ε α := Prog.pure (.ok a)

def fail (e : Exit ε) : Act S ε α := Prog.pure (.error e)

/-- Sequencing; a bad end skips the rest. -/
def andThen (p : Act S ε α) (f : α → Act S ε β) : Act S ε β :=
  Prog.bind p fun
    | .ok a => f a
    | .error e => Prog.pure (.error e)

instance : Monad (Act S ε) where
  pure := ret
  bind := andThen

/-- Make one call. -/
def perform (o : S.Op) : Act S ε (S.Ans o) := Prog.call o fun x => Prog.pure (.ok x)

/-- Return early with an error. -/
def throw (e : ε) : Act S ε α := fail (.error e)

/-- Unwind. -/
def panic (msg : String) : Act S ε α := fail (.panic msg)

/-- `result?`: go on with the value or return the error. -/
def orThrow (r : Except ε α) : Act S ε α :=
  match r with
  | .ok a => ret a
  | .error e => throw e

/-- `match p.await { Ok(a) => .., Err(e) => .. }`: errors become values,
panics do not. -/
def attempt (p : Act S ε α) : Act S ε (Except ε α) :=
  Prog.bind p fun
    | .ok a => Prog.pure (.ok (.ok a))
    | .error (.error e) => Prog.pure (.ok (.error e))
    | .error (.panic m) => Prog.pure (.error (.panic m))

/-- How a caught program runs. -/
theorem runs_attempt_andThen {p : Act S ε α} {f : Except ε α → Act S ε β} {tr : Trace S}
    {b : Except (Exit ε) β} :
    Prog.Runs (attempt p >>= f : Act S ε β) tr b ↔ ∃ tr₁ r tr₂,
      tr = tr₁ ++ tr₂ ∧ Prog.Runs p tr₁ r ∧
      match r with
      | .ok a => Prog.Runs (f (.ok a)) tr₂ b
      | .error (.error e) => Prog.Runs (f (.error e)) tr₂ b
      | .error (.panic m) => tr₂ = [] ∧ .error (.panic m) = b := by
  refine Prog.runs_bind.trans ⟨?_, ?_⟩
  · rintro ⟨_, x, tr₂, rfl, hp, hf⟩
    obtain ⟨tr₁, r, _, rfl, hr, hx⟩ := Prog.runs_bind.mp hp
    rcases r with (e | m) | a <;> obtain ⟨rfl, rfl⟩ := hx
    · exact ⟨tr₁, _, tr₂, by simp, hr, hf⟩
    · exact ⟨tr₁, _, tr₂, by simp, hr, hf⟩
    · exact ⟨tr₁, _, tr₂, by simp, hr, hf⟩
  · rintro ⟨tr₁, r, tr₂, rfl, hr, hf⟩
    rcases r with (e | m) | a
    · exact ⟨tr₁, _, tr₂, rfl, Prog.runs_bind.mpr ⟨tr₁, _, [], by simp, hr, rfl, rfl⟩, hf⟩
    · exact ⟨tr₁, _, tr₂, rfl, Prog.runs_bind.mpr ⟨tr₁, _, [], by simp, hr, rfl, rfl⟩, hf⟩
    · exact ⟨tr₁, _, tr₂, rfl, Prog.runs_bind.mpr ⟨tr₁, _, [], by simp, hr, rfl, rfl⟩, hf⟩

/-- A sequence that returns has returned from its first part. -/
theorem runs_andThen_ok {p : Act S ε α} {f : α → Act S ε β} {tr : Trace S} {b : β} :
    Prog.Runs (p >>= f : Act S ε β) tr (.ok b) ↔
      ∃ tr₁ a tr₂, tr = tr₁ ++ tr₂ ∧ Prog.Runs p tr₁ (.ok a) ∧ Prog.Runs (f a) tr₂ (.ok b) := by
  refine Prog.runs_bind.trans ⟨?_, ?_⟩
  · rintro ⟨tr₁, r, tr₂, rfl, hp, hf⟩
    cases r with
    | error e => cases hf.2
    | ok a => exact ⟨tr₁, a, tr₂, rfl, hp, hf⟩
  · rintro ⟨tr₁, a, tr₂, rfl, hp, hf⟩
    exact ⟨tr₁, .ok a, tr₂, rfl, hp, hf⟩

theorem pure_andThen {a : α} {f : α → Act S ε β} : (pure a >>= f) = f a := rfl

theorem panic_andThen {m : String} {f : α → Act S ε β} : (panic m >>= f) = panic m := rfl

theorem orThrow_ok {a : α} : (orThrow (.ok a) : Act S ε α) = pure a := rfl

/-- `Prog.Follows`, at the type of fallible programs. -/
def Follows (P : Protocol S σ) (g : σ) (p : Act S ε α) (Q : σ → Except (Exit ε) α → Prop) :
    Prop :=
  Prog.Follows P Q g p

variable {P : Protocol S σ} {g : σ} {Q : σ → Except (Exit ε) α → Prop}

theorem follows_pure {a : α} : Follows P g (pure a) Q ↔ Q g (.ok a) := Iff.rfl

theorem follows_throw {e : ε} : Follows P g (throw e) Q ↔ Q g (.error (.error e)) := Iff.rfl

theorem follows_panic {m : String} : Follows P g (panic m) Q ↔ Q g (.error (.panic m)) :=
  Iff.rfl

theorem follows_bind {p : Act S ε α} {f : α → Act S ε β}
    {Q : σ → Except (Exit ε) β → Prop} :
    Follows P g (p >>= f) Q ↔
      Follows P g p fun g r => match r with
        | .ok a => Follows P g (f a) Q
        | .error e => Q g (.error e) := by
  refine Prog.follows_bind.trans ⟨fun h => h.mono ?_, fun h => h.mono ?_⟩ <;>
    rintro g (e | a) h <;> exact h

theorem follows_orThrow {r : Except ε α} :
    Follows P g (orThrow r) Q ↔
      (∀ a, r = .ok a → Q g (.ok a)) ∧ ∀ e, r = .error e → Q g (.error (.error e)) := by
  cases r with
  | ok a => simp [orThrow, Follows, ret]
  | error e => simp [orThrow, Follows, throw, fail]

theorem follows_attempt {p : Act S ε α} {Q : σ → Except (Exit ε) (Except ε α) → Prop} :
    Follows P g (attempt p) Q ↔
      Follows P g p fun g r => match r with
        | .ok a => Q g (.ok (.ok a))
        | .error (.error e) => Q g (.ok (.error e))
        | .error (.panic m) => Q g (.error (.panic m)) := by
  refine Prog.follows_bind.trans ⟨fun h => h.mono ?_, fun h => h.mono ?_⟩ <;>
    rintro g ((e | m) | a) h <;> exact h

theorem follows_ite {c : Prop} [Decidable c] {p q : Act S ε α} :
    Follows P g (if c then p else q) Q ↔
      (c → Follows P g p Q) ∧ (¬c → Follows P g q Q) := by
  split <;> simp [*]

theorem Follows.mono {Q' : σ → Except (Exit ε) α → Prop} {p : Act S ε α} (h : Follows P g p Q)
    (hQ : ∀ g a, Q g a → Q' g a) : Follows P g p Q' :=
  Prog.Follows.mono h hQ

end Act

end Interaction
