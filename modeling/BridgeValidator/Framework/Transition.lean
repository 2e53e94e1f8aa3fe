import BridgeValidator.Framework.Program
import Mathlib.Data.List.Forall2
import Mathlib.Data.List.ReduceOption
import Mathlib.Logic.Relation

/-!
# Labelled transition systems and programs run against a state

`Machine` is a labelled transition system. Runs grow at the end, so an
invariant is one step lemma (`Run.invariant`), and a bound on how often a kind
of step can happen is one inequality (`Run.countP_budget`).

`Prog.Exec` is the big-step run of a program against a state that answers its
calls; the semantics may let the state drift between two calls, which is how
other parties show up in the run of one of them.
-/

namespace Interaction

structure Machine (σ L : Type) where
  init : σ → Prop
  step : σ → L → σ → Prop

namespace Machine

/-- `M.Run s ls t`: from `s`, the steps labelled `ls` lead to `t`. -/
inductive Run {σ L : Type} (M : Machine σ L) (s : σ) : List L → σ → Prop
  | nil : Run M s [] s
  | snoc {ls t l u} : Run M s ls t → M.step t l u → Run M s (ls ++ [l]) u

variable {σ L : Type} {M : Machine σ L} {s t u : σ} {l : L} {ls ls' : List L}

def Reachable (M : Machine σ L) (t : σ) : Prop := ∃ s ls, M.init s ∧ M.Run s ls t

theorem Run.single (h : M.step s l t) : M.Run s [l] t := .snoc .nil h

theorem Run.append (h : M.Run s ls t) (h' : M.Run t ls' u) : M.Run s (ls ++ ls') u := by
  induction h' with
  | nil => simpa using h
  | snoc _ hstep ih => simpa using Run.snoc ih hstep

theorem Run.cons (h : M.step s l t) (h' : M.Run t ls u) : M.Run s (l :: ls) u :=
  (Run.single h).append h'

theorem Run.reachable (h : M.Run s ls t) (hs : M.Reachable s) : M.Reachable t := by
  obtain ⟨s₀, ls₀, hi, h₀⟩ := hs
  exact ⟨s₀, ls₀ ++ ls, hi, h₀.append h⟩

theorem Reachable.step (hs : M.Reachable s) (h : M.step s l t) : M.Reachable t :=
  (Run.single h).reachable hs

/-- A run can be cut at any of its steps. -/
theorem Run.split (h : M.Run s ls t) (hl : l ∈ ls) :
    ∃ ls₁ m m' ls₂, ls = ls₁ ++ l :: ls₂ ∧ M.Run s ls₁ m ∧ M.step m l m' ∧ M.Run m' ls₂ t := by
  induction h with
  | nil => cases hl
  | @snoc ls t l' u hrun hstep ih =>
      rcases List.mem_append.mp hl with hl | hl
      · obtain ⟨ls₁, m, m', ls₂, rfl, h₁, hm, h₂⟩ := ih hl
        exact ⟨ls₁, m, m', ls₂ ++ [l'], by simp, h₁, hm, .snoc h₂ hstep⟩
      · obtain rfl := List.mem_singleton.mp hl
        exact ⟨ls, t, u, [], rfl, hrun, hstep, .nil⟩

/-- What every step preserves, every run preserves. -/
theorem Run.invariant {I : σ → Prop} (h : M.Run s ls t)
    (hstep : ∀ s l t, I s → M.step s l t → I t) (hs : I s) : I t := by
  induction h with
  | nil => exact hs
  | snoc _ hl ih => exact hstep _ _ _ ih hl

/-- The invariant rule, with an already established invariant at hand. -/
theorem Reachable.invariant {I : σ → Prop} (hinit : ∀ s, M.init s → I s)
    (hstep : ∀ s l t, M.Reachable s → I s → M.step s l t → I t) (h : M.Reachable t) :
    I t := by
  obtain ⟨s₀, ls, hi, hrun⟩ := h
  induction hrun with
  | nil => exact hinit _ hi
  | snoc hrun hl ih => exact hstep _ _ _ ⟨s₀, _, hi, hrun⟩ ih hl

/-- A machine with these steps and more has these runs. -/
theorem Run.mono {N : Machine σ L} (h : M.Run s ls t)
    (hstep : ∀ s l t, M.step s l t → N.step s l t) : N.Run s ls t := by
  induction h with
  | nil => exact .nil
  | snoc _ hl ih => exact .snoc ih (hstep _ _ _ hl)

/-- A view of the state under which every step is a step of `N`, or none, takes
reachable states to reachable states. -/
theorem Reachable.simulates {τ K : Type} {N : Machine τ K} {f : σ → τ} (h : M.Reachable t)
    (hinit : ∀ s, M.init s → N.init (f s))
    (hstep : ∀ s l t, M.Reachable s → M.step s l t → f t = f s ∨ ∃ k, N.step (f s) k (f t)) :
    N.Reachable (f t) := by
  refine h.invariant (I := fun s => N.Reachable (f s)) ?_ ?_
  · intro s hs
    exact ⟨f s, [], hinit s hs, .nil⟩
  · intro s l t hs hview hl
    rcases hstep s l t hs hl with heq | ⟨k, hk⟩
    · rw [heq]
      exact hview
    · exact hview.step hk

/-- **Trace refinement.** Under a view of the state under which every step is a step of `N`, or
none, a run is a run of `N`, step by step related by `R`. -/
theorem Run.traces {τ K : Type} {N : Machine τ K} {f : σ → τ} {R : L → Option K → Prop}
    {I : σ → Prop} (h : M.Run s ls t) (hs : I s)
    (hstep : ∀ s l t, I s → M.step s l t →
      I t ∧ ∃ o, R l o ∧ o.elim (f t = f s) fun k => N.step (f s) k (f t)) :
    I t ∧ ∃ os, List.Forall₂ R ls os ∧ N.Run (f s) os.reduceOption (f t) := by
  induction h with
  | nil => exact ⟨hs, [], .nil, .nil⟩
  | @snoc ls t l u _ hl ih =>
      obtain ⟨hI, os, hos, hrun⟩ := ih
      obtain ⟨hI', o, ho, hview⟩ := hstep _ _ _ hI hl
      refine ⟨hI', os ++ [o], List.rel_append hos (.cons ho .nil), ?_⟩
      cases o with
      | none =>
          rw [List.reduceOption_append, hview]
          simpa using hrun
      | some k =>
          rw [List.reduceOption_append]
          exact .snoc hrun hview

/-- The matched steps are as many on both sides. -/
theorem countP_of_matched {K : Type} [DecidableEq K] {R : L → Option K → Prop} {p : L → Bool}
    {k : K} {os : List (Option K)} (h : List.Forall₂ R ls os)
    (hR : ∀ l o, R l o → (p l = true ↔ o = some k)) :
    ls.countP p = os.reduceOption.count k := by
  induction h with
  | nil => rfl
  | @cons l o ls os hl _ ih =>
      have hiff := hR l o hl
      rw [List.countP_cons, ih]
      cases o with
      | none => simp_all
      | some k' => simp_all [List.count_cons]

/-- Steps that are paid for out of a budget are no more than the budget and what was paid
into it on the way. -/
theorem Run.countP_funded {I : σ → Prop} {p q : L → Bool} {budget : σ → Nat}
    (h : M.Run s ls t) (hs : I s)
    (hstep : ∀ s l t, I s → M.step s l t →
      I t ∧ (if p l then 1 else 0) + budget t ≤ (if q l then 1 else 0) + budget s) :
    I t ∧ ls.countP p + budget t ≤ ls.countP q + budget s := by
  induction h with
  | nil => simpa using hs
  | snoc _ hl ih =>
      obtain ⟨hI, hle⟩ := ih
      obtain ⟨hI', hle'⟩ := hstep _ _ _ hI hl
      refine ⟨hI', ?_⟩
      rw [List.countP_append, List.countP_singleton, List.countP_append, List.countP_singleton]
      omega

/-- Where nothing is paid in, the steps are no more than the budget. -/
theorem Run.countP_budget {I : σ → Prop} {p : L → Bool} {budget : σ → Nat}
    (h : M.Run s ls t) (hs : I s)
    (hstep : ∀ s l t, I s → M.step s l t →
      I t ∧ (if p l then 1 else 0) + budget t ≤ budget s) :
    I t ∧ ls.countP p + budget t ≤ budget s := by
  have hfunded := h.countP_funded (I := I) (p := p) (q := fun _ => false) hs
    fun s l t hI hl => by simpa using hstep s l t hI hl
  simpa using hfunded

/-- The machine restricted to the steps that meet a condition. -/
def guarded (M : Machine σ L) (G : σ → L → σ → Prop) : Machine σ L where
  init := M.init
  step s l t := M.step s l t ∧ G s l t

theorem Run.of_guarded {G : σ → L → σ → Prop} (h : (M.guarded G).Run s ls t) :
    M.Run s ls t :=
  h.mono fun _ _ _ hl => hl.1

/-- A run meets a condition that follows from the one it meets. -/
theorem Run.guarded_mono {G G' : σ → L → σ → Prop} (hG : ∀ s l t, G s l t → G' s l t)
    (h : (M.guarded G).Run s ls t) : (M.guarded G').Run s ls t :=
  h.mono fun _ _ _ hl => ⟨hl.1, hG _ _ _ hl.2⟩

/-- A condition on labels alone can be checked on the labels of the run. -/
theorem Run.guarded_of_labels {G : L → Prop} (h : M.Run s ls t) (hl : ∀ l ∈ ls, G l) :
    (M.guarded fun _ l _ => G l).Run s ls t := by
  induction h with
  | nil => exact .nil
  | snoc _ hstep ih =>
      exact .snoc (ih fun l hmem => hl l (List.mem_append_left _ hmem))
        ⟨hstep, hl _ (List.mem_append_right _ (List.mem_singleton_self _))⟩

theorem Reachable.of_guarded {G : σ → L → σ → Prop} (h : (M.guarded G).Reachable t) :
    M.Reachable t := by
  obtain ⟨s, ls, hi, hrun⟩ := h
  exact ⟨s, ls, hi, hrun.of_guarded⟩

/-! ## What a run has passed -/

/-- The invariant rule, for what is known of a state and of the steps that led to it. -/
theorem Run.history {I : List L → σ → Prop} (h : M.Run s ls t) (hs : I [] s)
    (hstep : ∀ ls t l u, M.Run s ls t → I ls t → M.step t l u → I (ls ++ [l]) u) : I ls t := by
  induction h with
  | nil => exact hs
  | snoc hrun hl ih => exact hstep _ _ _ _ hrun ih hl

/-- At some step on the way to `t` `P` holds: of the labels so far, the step and the states
around it. -/
def Passed (M : Machine σ L) (s : σ) (ls : List L) (t : σ) (P : List L → σ → L → σ → Prop) :
    Prop :=
  ∃ ls₁ m l m' ls₂, ls = ls₁ ++ l :: ls₂ ∧ M.Run s ls₁ m ∧ M.step m l m' ∧ P ls₁ m l m' ∧
    M.Run m' ls₂ t

theorem Passed.now {P : List L → σ → L → σ → Prop} (h : M.Run s ls t) (hstep : M.step t l u)
    (hP : P ls t l u) : M.Passed s (ls ++ [l]) u P :=
  ⟨ls, t, l, u, [], rfl, h, hstep, hP, .nil⟩

/-- What has been passed stays passed. -/
theorem Passed.snoc {P : List L → σ → L → σ → Prop} (h : M.Passed s ls t P) (hl : M.step t l u) :
    M.Passed s (ls ++ [l]) u P := by
  obtain ⟨ls₁, m, l', m', ls₂, rfl, hrun, hstep, hP, hrest⟩ := h
  exact ⟨ls₁, m, l', m', ls₂ ++ [l], by simp, hrun, hstep, hP, .snoc hrest hl⟩

/-! ## Endless runs -/

/-- A run that never ends. -/
structure Path (M : Machine σ L) where
  state : Nat → σ
  label : Nat → L
  step : ∀ k, M.step (state k) (label k) (state (k + 1))

namespace Path

variable (p : M.Path)

theorem run (k : Nat) : M.Run (p.state 0) ((List.range k).map p.label) (p.state k) := by
  induction k with
  | zero => exact .nil
  | succ k ih =>
      rw [List.range_succ, List.map_append]
      exact .snoc ih (p.step k)

/-- The run from its `n`-th state on. -/
def drop (n : Nat) : M.Path where
  state k := p.state (n + k)
  label k := p.label (n + k)
  step k := p.step (n + k)

/-- What holds at one point and not at a later one is lost with a step in between. -/
theorem exists_loss {P : σ → Prop} {n k : Nat} (hk : n ≤ k) (hn : P (p.state n))
    (hnot : ¬P (p.state k)) : ∃ j, n ≤ j ∧ P (p.state j) ∧ ¬P (p.state (j + 1)) := by
  by_contra hkept
  push Not at hkept
  apply hnot
  clear hnot
  induction hk with
  | refl => exact hn
  | step hj ih => exact hkept _ hj ih

/-- What happens at most `bound` times stops happening. -/
theorem eventually_not {q : L → Bool} {bound : Nat}
    (h : ∀ k, ((List.range k).map p.label).countP q ≤ bound) :
    ∃ k, ∀ j, k ≤ j → q (p.label j) = false := by
  by_contra hnever
  push Not at hnever
  -- each time it happens once more, there are more than any number
  have hmany : ∀ n, ∃ k, n ≤ ((List.range k).map p.label).countP q := by
    intro n
    induction n with
    | zero => exact ⟨0, Nat.zero_le _⟩
    | succ n ih =>
        obtain ⟨k, hk⟩ := ih
        obtain ⟨j, hkj, hj⟩ := hnever k
        have hq : q (p.label j) = true := by simpa using hj
        have hsub : ((List.range k).map p.label).countP q ≤
            ((List.range j).map p.label).countP q :=
          ((List.range_sublist.mpr hkj).map p.label).countP_le
        refine ⟨j + 1, ?_⟩
        rw [List.range_succ, List.map_append, List.countP_append, List.map_singleton,
          List.countP_singleton, if_pos hq]
        omega
  obtain ⟨k, hk⟩ := hmany (bound + 1)
  have hle := h k
  omega

/-- Of finitely many kinds of step that each happen only so often, none happens any more
from some point on. -/
theorem eventually_forall_not {κ : Type} (q : κ → L → Bool) {keys : List κ} (bound : κ → Nat)
    (h : ∀ x ∈ keys, ∀ k, ((List.range k).map p.label).countP (q x) ≤ bound x) :
    ∃ k, ∀ j, k ≤ j → ∀ x ∈ keys, q x (p.label j) = false := by
  induction keys with
  | nil => exact ⟨0, fun _ _ => List.forall_mem_nil _⟩
  | cons x keys ih =>
      obtain ⟨hfirst, hrest⟩ := List.forall_mem_cons.mp h
      obtain ⟨a, ha⟩ := p.eventually_not hfirst
      obtain ⟨b, hb⟩ := ih hrest
      refine ⟨max a b, fun j hj => List.forall_mem_cons.mpr ⟨?_, ?_⟩⟩
      · exact ha j (Nat.le_trans (Nat.le_max_left a b) hj)
      · exact hb j (Nat.le_trans (Nat.le_max_right a b) hj)

/-- What only happens on the way down a well-founded order stops happening. -/
theorem eventually_of_descent {α : Type} {r : α → α → Prop} (hr : WellFounded r) (f : σ → α)
    {q : L → Bool} (k₀ : Nat)
    (hkeep : ∀ k, k₀ ≤ k → f (p.state (k + 1)) = f (p.state k) ∨
      r (f (p.state (k + 1))) (f (p.state k)))
    (hdown : ∀ k, k₀ ≤ k → q (p.label k) = true → r (f (p.state (k + 1))) (f (p.state k))) :
    ∃ k, ∀ j, k ≤ j → q (p.label j) = false := by
  generalize ha : f (p.state k₀) = a
  induction a using hr.transGen.induction generalizing k₀ with
  | _ a ih =>
      subst ha
      by_cases hnever : ∃ j, k₀ ≤ j ∧ q (p.label j) = true
      · obtain ⟨j, hj, hq⟩ := hnever
        have hway : ∀ n, f (p.state (k₀ + n)) = f (p.state k₀) ∨
            Relation.TransGen r (f (p.state (k₀ + n))) (f (p.state k₀)) := by
          intro n
          induction n with
          | zero => exact Or.inl rfl
          | succ n ihn =>
              rcases hkeep (k₀ + n) (Nat.le_add_right _ _) with heq | hlt
              · rw [← Nat.add_assoc, heq]
                exact ihn
              · rcases ihn with heq | hgt
                · exact Or.inr (.single (heq ▸ hlt))
                · exact Or.inr (.head hlt hgt)
        have hbelow : Relation.TransGen r (f (p.state (j + 1))) (f (p.state k₀)) := by
          have hlt := hdown j hj hq
          rcases hway (j - k₀) with heq | hgt
          · rw [Nat.add_sub_cancel' hj] at heq
            exact .single (heq ▸ hlt)
          · rw [Nat.add_sub_cancel' hj] at hgt
            exact .head hlt hgt
        refine ih _ hbelow (j + 1) ?_ ?_ rfl
        · exact fun k hk => hkeep k (by omega)
        · exact fun k hk => hdown k (by omega)
      · refine ⟨k₀, fun j hj => ?_⟩
        by_contra hq
        exact hnever ⟨j, hj, by simpa using hq⟩

/-- A phase in which every step of one kind is a step down, and there is always another
one to come, is left. -/
theorem exists_exit {α : Type} {r : α → α → Prop} (hr : WellFounded r) (f : σ → α)
    (q : L → Bool) {P : σ → Prop} {k : Nat} (hP : P (p.state k))
    (hstep : ∀ j, k ≤ j → P (p.state j) → P (p.state (j + 1)) →
      (f (p.state (j + 1)) = f (p.state j) ∨ r (f (p.state (j + 1))) (f (p.state j))) ∧
        (q (p.label j) = true → r (f (p.state (j + 1))) (f (p.state j))))
    (hq : ∀ j, k ≤ j → P (p.state j) → ∃ i, j ≤ i ∧ q (p.label i) = true) :
    ∃ j, k ≤ j ∧ P (p.state j) ∧ ¬P (p.state (j + 1)) := by
  by_contra hstays
  push Not at hstays
  have hall : ∀ j, k ≤ j → P (p.state j) := by
    intro j hj
    induction hj with
    | refl => exact hP
    | step hj ih => exact hstays _ hj ih
  obtain ⟨n, hn⟩ := p.eventually_of_descent hr f k
    (fun j hj => (hstep j hj (hall j hj) (hall (j + 1) (Nat.le_succ_of_le hj))).1)
    (fun j hj => (hstep j hj (hall j hj) (hall (j + 1) (Nat.le_succ_of_le hj))).2)
  obtain ⟨i, hi, hqi⟩ := hq (max k n) (Nat.le_max_left k n) (hall _ (Nat.le_max_left k n))
  rw [hn i (Nat.le_trans (Nat.le_max_right k n) hi)] at hqi
  cases hqi

end Path

/-- The states of a run, one after the other. -/
theorem Run.states (h : M.Run s ls t) : ∃ f : Nat → σ, f 0 = s ∧ f ls.length = t ∧
    ∀ k (hk : k < ls.length), M.step (f k) ls[k] (f (k + 1)) := by
  induction h with
  | nil => exact ⟨fun _ => s, rfl, rfl, nofun⟩
  | @snoc ls t l u hrun hstep ih =>
      obtain ⟨f, hfirst, hlast, hsteps⟩ := ih
      have hover : ¬ls.length + 1 ≤ ls.length := Nat.not_succ_le_self _
      refine ⟨fun k => if k ≤ ls.length then f k else u, ?_, ?_, fun k hk => ?_⟩
      · simp [hfirst]
      · simp [hover]
      · rw [List.length_append, List.length_singleton] at hk
        simp only
        by_cases hin : k < ls.length
        · rw [List.getElem_append_left hin, if_pos (by omega), if_pos (by omega)]
          exact hsteps k hin
        · obtain rfl : k = ls.length := by omega
          simpa [hlast, hover] using hstep

/-- A run that has come to a state with a step back to it can go on for ever. -/
theorem Run.path (h : M.Run s ls t) (hloop : M.step t l t) :
    ∃ p : M.Path, p.state 0 = s ∧ (∀ k, ls.length ≤ k → p.state k = t ∧ p.label k = l) ∧
      ∀ k (hk : k < ls.length), p.label k = ls[k] := by
  obtain ⟨f, hfirst, hlast, hsteps⟩ := h.states
  refine ⟨⟨fun k => f (min k ls.length), fun k => if hk : k < ls.length then ls[k] else l,
    fun k => ?_⟩, by simpa using hfirst, fun k hk => ?_, fun k hk => dif_pos hk⟩
  · by_cases hk : k < ls.length
    · rw [dif_pos hk, Nat.min_eq_left (by omega), Nat.min_eq_left (by omega)]
      exact hsteps k hk
    · rw [dif_neg hk, Nat.min_eq_right (by omega), Nat.min_eq_right (by omega), hlast]
      exact hloop
  · refine ⟨?_, dif_neg (by omega)⟩
    simp only [Nat.min_eq_right hk]
    exact hlast

end Machine

/-! ## Running a program against a state -/

/-- One answered call, with the states around it. -/
structure Entry (S : Sig) (σ : Type) where
  before : σ
  event : Event S
  after : σ

namespace Prog

variable {S : Sig} {α β σ : Type}

/-- `Exec sem s p tr a t`: started in `s`, `p` returns `a` and leaves `t`. -/
def Exec (sem : σ → (o : S.Op) → S.Ans o → σ → Prop) :
    σ → Prog S α → List (Entry S σ) → α → σ → Prop
  | s, .pure b, tr, a, t => tr = [] ∧ b = a ∧ s = t
  | s, .call o k, tr, a, t => ∃ x s' rest, sem s o x s' ∧
      tr = ⟨s, ⟨o, x⟩, s'⟩ :: rest ∧ Exec sem s' (k x) rest a t

variable {sem : σ → (o : S.Op) → S.Ans o → σ → Prop} {s t : σ}

theorem exec_bind {p : Prog S α} {f : α → Prog S β} {tr : List (Entry S σ)} {b : β} :
    Exec sem s (p.bind f) tr b t ↔
      ∃ tr₁ a s₁ tr₂, tr = tr₁ ++ tr₂ ∧ Exec sem s p tr₁ a s₁ ∧ Exec sem s₁ (f a) tr₂ b t := by
  induction p generalizing tr s with
  | pure a =>
      simp only [bind, Exec]
      constructor
      · intro h
        exact ⟨[], a, s, tr, rfl, ⟨rfl, rfl, rfl⟩, h⟩
      · rintro ⟨_, _, _, tr₂, rfl, ⟨rfl, rfl, rfl⟩, h⟩
        simpa using h
  | call o k ih =>
      simp only [bind, Exec]
      constructor
      · rintro ⟨x, s', rest, hs, rfl, h⟩
        obtain ⟨tr₁, a, s₁, tr₂, rfl, h₁, h₂⟩ := (ih x).mp h
        exact ⟨_ :: tr₁, a, s₁, tr₂, rfl, ⟨x, s', tr₁, hs, rfl, h₁⟩, h₂⟩
      · rintro ⟨_, a, s₁, tr₂, rfl, ⟨x, s', rest, hs, rfl, h₁⟩, h₂⟩
        exact ⟨x, s', rest ++ tr₂, hs, rfl, (ih x).mpr ⟨rest, a, s₁, tr₂, rfl, h₁, h₂⟩⟩

/-- Forgetting the states, an execution is a run. -/
theorem Exec.runs {p : Prog S α} {tr : List (Entry S σ)} {a : α}
    (h : Exec sem s p tr a t) : p.Runs (tr.map Entry.event) a := by
  induction p generalizing tr s with
  | pure b =>
      obtain ⟨rfl, rfl, -⟩ := h
      exact ⟨rfl, rfl⟩
  | call o k ih =>
      obtain ⟨x, s', rest, -, rfl, h⟩ := h
      exact ⟨x, _, rfl, ih x h⟩

/-- A protocol whose ghost state is the state itself: what is owed under it holds of
every execution. -/
theorem Exec.of_follows {P : Protocol S σ} {Q : σ → α → Prop} {p : Prog S α}
    {tr : List (Entry S σ)} {a : α}
    (hsem : ∀ s o x t, P.allows s o → sem s o x t → P.admits s o x ∧ P.next s o x = t)
    (h : p.Follows P Q s) (he : Exec sem s p tr a t) : Q t a := by
  induction p generalizing s tr with
  | pure b =>
      obtain ⟨-, rfl, rfl⟩ := he
      exact h
  | call o k ih =>
      obtain ⟨x, s', rest, hs, -, he⟩ := he
      obtain ⟨hadm, rfl⟩ := hsem s o x s' h.1 hs
      exact ih x (h.2 x hadm) he

/-- What a handler computes is an execution, if its answers are. -/
theorem Exec.of_handler {h : σ → (o : S.Op) → S.Ans o × σ}
    (hsem : ∀ s o, sem s o (h s o).1 (h s o).2) (p : Prog S α) (s : σ) :
    ∃ tr, Exec sem s p tr (p.exec h s).2.1 (p.exec h s).2.2 := by
  induction p generalizing s with
  | pure a => exact ⟨[], rfl, rfl, rfl⟩
  | call o k ih =>
      obtain ⟨tr, hexec⟩ := ih (h s o).1 (h s o).2
      exact ⟨_, _, _, tr, hsem s o, rfl, hexec⟩

/-- The same for a sequence, with the run of its first part. -/
theorem Exec.of_handler_bind {h : σ → (o : S.Op) → S.Ans o × σ}
    (hsem : ∀ s o, sem s o (h s o).1 (h s o).2) (p : Prog S α) (f : α → Prog S β) (s : σ) :
    ∃ tr₁ tr₂, Exec sem s (p.bind f) (tr₁ ++ tr₂) ((p.bind f).exec h s).2.1
        ((p.bind f).exec h s).2.2 ∧ p.Runs (tr₁.map Entry.event) (p.exec h s).2.1 := by
  obtain ⟨tr₁, h₁⟩ := Exec.of_handler hsem p s
  obtain ⟨tr₂, h₂⟩ := Exec.of_handler hsem (f (p.exec h s).2.1) (p.exec h s).2.2
  refine ⟨tr₁, tr₂, ?_, h₁.runs⟩
  rw [exec_seq]
  exact exec_bind.mpr ⟨tr₁, _, _, tr₂, rfl, h₁, h₂⟩

end Prog

end Interaction
