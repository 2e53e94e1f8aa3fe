import BridgeValidator.Settlement

/-!
# Services that go on, and get what they need

What is assumed of an endless run where a service has to come to something: from some point on
the process lives and the service takes its rounds, and its providers report blocks that are
far enough. One endpoint of a chain that answers is enough for every lookup there.
-/

namespace BridgeValidator

open Interaction

variable {W : World} {lib : Externals}

/-! ## A service that goes on -/

/-- From `n` on the process lives, the service goes on with its rounds, and it begins another
one while there is work for it. -/
structure Persists (p : (system lib W).Path) (n : Nat) (v : Service) (work : Sys W → Prop) :
    Prop where
  lives : ∀ k, n ≤ k → (p.label k).ends = false
  goes : ∀ k, n ≤ k → (p.state k).running v ≠ none → ∃ j, k ≤ j ∧ (p.label j).by v = true
  begins : ∀ k, n ≤ k → (p.state k).running v = none → work (p.state k) →
    ∃ j job, k ≤ j ∧ job.service = v ∧ p.label j = .start job

section

variable {p : (system lib W).Path} {n j k : Nat} {v : Service} {work : Sys W → Prop}
  {r : Running}

theorem Persists.config_eq (h : Persists p n v work) (hk : n ≤ k) :
    (p.state k).config = (p.state n).config := by
  induction hk with
  | refl => rfl
  | step hk ih =>
      exact ((p.step _).config_eq (Label.isRestart_of_ends (h.lives _ hk))).trans ih

/-- A round comes to its end. -/
theorem Persists.exists_finish (h : Persists p n v work) (hk : n ≤ k)
    (hbusy : (p.state k).running v ≠ none) :
    ∃ m, k ≤ m ∧ p.label m = .finish v ∧ (p.state (m + 1)).running v = none := by
  obtain ⟨m, hm, hrunning, hnone⟩ := p.exists_exit Prog.later_wf (fun s => s.left v) (Label.by v)
    (P := fun s => s.running v ≠ none) hbusy
    (fun j hj hj₀ _ => (p.step j).left_down hj₀) (fun j hj hj₀ => h.goes j (hk.trans hj) hj₀)
  refine ⟨m, hm, ?_, not_not.mp hnone⟩
  rcases (p.step m).running_of hrunning with hfinish | hends | hstays
  · exact hfinish
  · cases (h.lives m (hk.trans hm)).symm.trans hends
  · exact absurd hstays hnone

/-- While there is work a whole round is taken. -/
theorem Persists.exists_round (h : Persists p n v work) (hk : n ≤ k)
    (hidle : (p.state k).running v = none) (hwork : work (p.state k)) :
    ∃ j m, k ≤ j ∧ j ≤ m ∧ (p.state j).running v = none ∧ p.label m = .finish v ∧
      (p.state (m + 1)).running v = none := by
  obtain ⟨j, job, hj, rfl, hstart⟩ := h.begins k hk hidle hwork
  have hround : (p.state j).running job.service = none ∧
      (p.state (j + 1)).running job.service ≠ none := by
    have hstep := p.step j
    rw [hstart] at hstep
    generalize p.state (j + 1) = t at hstep
    cases hstep with
    | index hi | process hi _ | check hi _ | recv hi _ => exact ⟨hi.1, by simp [Sys.begin]⟩
  obtain ⟨m, hm, hfinish, hnone⟩ := h.exists_finish (Nat.le_succ_of_le (hk.trans hj)) hround.2
  exact ⟨j, m, hj, Nat.le_of_succ_le hm, hround.1, hfinish, hnone⟩

/-- Each call of a round that began after `j` was answered at a step after `j`. -/
theorem exists_call_at (hk : j ≤ k) (hidle : (p.state j).running v = none)
    (hr : (p.state k).running v = some r) {tr₁ tr₂ : Trace Calls} {e : Event Calls}
    (htr : r.trace = tr₁ ++ e :: tr₂) :
    ∃ i, j ≤ i ∧ i < k ∧ p.label i = .call v e ∧
      ∃ r₁, (p.state i).running v = some r₁ ∧ r₁.trace = tr₁ := by
  induction hk generalizing r tr₂ with
  | refl =>
      rw [hidle] at hr
      cases hr
  | @step k hk ih =>
      rcases (p.step k).round hr with hr₀ | ⟨-, -, hnil⟩ | ⟨r₀, o, x, sh, hr₀, hl, -, -, htrace⟩
      · obtain ⟨i, hi, hlt, hcall⟩ := ih hr₀ htr
        exact ⟨i, hi, Nat.lt_succ_of_lt hlt, hcall⟩
      · rw [hnil] at htr
        cases tr₁ <;> cases htr
      · -- the last call of the round, or one before it
        rcases List.eq_nil_or_concat tr₂ with rfl | ⟨tr₃, last, rfl⟩
        · obtain ⟨htr₁, heq⟩ := List.append_inj' (htrace.symm.trans htr) rfl
          rw [List.singleton_inj.mp heq] at hl
          exact ⟨k, hk, Nat.lt_succ_self k, hl, r₀, hr₀, htr₁⟩
        · have hsplit : r₀.trace ++ [⟨o, x⟩] = (tr₁ ++ e :: tr₃) ++ [last] := by
            rw [← htrace, htr, List.append_assoc, List.cons_append, List.concat_eq_append]
          obtain ⟨i, hi, hlt, hcall⟩ := ih hr₀ (List.append_inj' hsplit rfl).1
          exact ⟨i, hi, Nat.lt_succ_of_lt hlt, hcall⟩

end

/-! ## Answers that bring a service on -/

/-- The statement is executed; a number that is reported finalized is no less than `number`; the
endpoints in `up` have an answer. -/
def Supplies (number : Int) (up : List String) : (o : Op) → o.Ans → Prop
  | .rpc (.beaconFinalized _), x => ∀ f, readBeaconResponse x = .ok f → number ≤ f
  | .rpc (.ethGetBlockByNumber el_rpc .finalized), x =>
      (∀ f, readElFinalized x = .ok f → number ≤ f) ∧
        (el_rpc ∈ up → ∃ f, readElFinalized x = .ok f)
  | .rpc (.ethGetBlockByNumber el_rpc (.number _)), x =>
      el_rpc ∈ up → ∃ h, readHashAnswer x = .hash h
  | .db _, x => ∃ a, x = .ok a
  | _, _ => True

section

variable {ε α : Type} {P : α → Prop}

instance decidableForallOk [DecidablePred P] : (x : Except ε α) → Decidable (∀ a, x = .ok a → P a)
  | .ok a => decidable_of_iff (P a) (by simp)
  | .error _ => isTrue (by simp)

instance decidableExistsOk : (x : Except ε α) → Decidable (∃ a, x = .ok a)
  | .ok a => isTrue ⟨a, rfl⟩
  | .error _ => isFalse (by simp)

end

instance decidableExistsHash : (x : HashAnswer) → Decidable (∃ h, x = .hash h)
  | .hash h => isTrue ⟨h, rfl⟩
  | .failed => isFalse (by simp)
  | .noHash => isFalse (by simp)

instance decidableSupplies (number : Int) (up : List String) :
    (o : Op) → (x : o.Ans) → Decidable (Supplies number up o x)
  | .rpc (.beaconFinalized _), x =>
      inferInstanceAs (Decidable (∀ f, readBeaconResponse x = .ok f → number ≤ f))
  | .rpc (.ethGetBlockByNumber el_rpc .finalized), x =>
      inferInstanceAs (Decidable ((∀ f, readElFinalized x = .ok f → number ≤ f) ∧
        (el_rpc ∈ up → ∃ f, readElFinalized x = .ok f)))
  | .rpc (.ethGetBlockByNumber el_rpc (.number _)), x =>
      inferInstanceAs (Decidable (el_rpc ∈ up → ∃ h, readHashAnswer x = .hash h))
  | .db _, x => inferInstanceAs (Decidable (∃ a, x = .ok a))
  | .rpc (.ethGetBlockByNumber _ .safe), _ | .rpc (.getLogs ..), _ | .rpc (.connect _), _
  | .rpc (.view _), _ | .rpc (.send ..), _ | .rpc (.getReceipt _), _ | .channelSend _, _ =>
      isTrue trivial

/-- Assumes such answers. -/
def supplied (number : Int) (up : List String) : Protocol Calls Unit where
  allows _ _ := True
  admits _ o x := Supplies number up o x
  next _ _ _ := ()

/-- Given such answers the program returns a value with `Q`. -/
def Yields {α : Type} (number : Int) (up : List String) (p : Action α) (Q : α → Prop) : Prop :=
  Act.Follows (supplied number up) () p fun _ r => ∃ a, r = .ok a ∧ Q a

section

variable {number : Int} {up : List String} {α β : Type} {p : Action α} {Q : α → Prop}
  {R : β → Prop}

theorem yields_pure {a : α} (h : Q a) : Yields number up (pure a) Q := ⟨a, rfl, h⟩

theorem Yields.bind {f : α → Action β} (h : Yields number up p Q)
    (hf : ∀ a, Q a → Yields number up (f a) R) : Yields number up (p >>= f) R := by
  refine Act.follows_bind.mpr (h.mono ?_)
  rintro _ _ ⟨a, rfl, ha⟩
  exact hf a ha

theorem Yields.attempt {f : Except BridgeValidatorError α → Action β} (h : Yields number up p Q)
    (hf : ∀ a, Q a → Yields number up (f (.ok a)) R) :
    Yields number up (Act.attempt p >>= f) R := by
  refine Act.follows_bind.mpr (Act.follows_attempt.mpr (h.mono ?_))
  rintro _ _ ⟨a, rfl, ha⟩
  exact hf a ha

theorem yields_sql (st : Stmt) : Yields number up (sql st) fun _ => True := by
  refine follows_sql.mpr ⟨trivial, fun a _ => ⟨a, rfl, trivial⟩, fun e h => ?_⟩
  obtain ⟨a, ha⟩ := h
  cases ha

theorem Yields.of_runs {tr : Trace Calls} {result : Except (Exit BridgeValidatorError) α}
    (h : Yields number up p Q) (hrun : Prog.Runs p tr result)
    (htr : ∀ e ∈ tr, Supplies number up e.op e.ans) :
    ∃ a, result = .ok a ∧ Q a :=
  (Prog.Follows.of_runs h hrun
    ((supplied number up).admitted_of_mem fun e he _ => htr e he)).2

end

/-! ## The lookups -/

section

variable {number : Int} {up el_rpcs : List String}

/-- The walk over the array ends at the endpoint that is up, or before it. -/
theorem yields_finalizedFromElRpcs (h : ∃ el_rpc ∈ el_rpcs, el_rpc ∈ up) :
    Yields number up (finalizedFromElRpcs el_rpcs) fun f => number ≤ f := by
  induction el_rpcs with
  | nil =>
      obtain ⟨_, hmem, _⟩ := h
      cases hmem
  | cons el_rpc rest ih =>
      refine Act.follows_bind.mpr (Act.follows_attempt.mpr (Act.follows_bind.mpr
        (follows_await.mpr ⟨trivial, fun x hx => Act.follows_orThrow.mpr ⟨?_, ?_⟩⟩)))
      · intro f hf
        exact ⟨f, rfl, hx.1 f hf⟩
      · intro e he
        apply ih
        obtain ⟨el_rpc', hmem, hup⟩ := h
        rcases List.mem_cons.mp hmem with rfl | hmem
        · obtain ⟨f, hf⟩ := hx.2 hup
          rw [he] at hf
          cases hf
        · exact ⟨el_rpc', hmem, hup⟩

theorem yields_getFinalizedBlockNumber (bc_rpc : Option String)
    (h : ∃ el_rpc ∈ el_rpcs, el_rpc ∈ up) :
    Yields number up (getFinalizedBlockNumber bc_rpc el_rpcs) fun f => number ≤ f := by
  cases bc_rpc with
  | none => exact yields_finalizedFromElRpcs h
  | some bc_rpc =>
      refine Act.follows_bind.mpr (Act.follows_attempt.mpr (Act.follows_bind.mpr
        (follows_await.mpr ⟨trivial, fun x hx => Act.follows_orThrow.mpr ⟨?_, ?_⟩⟩)))
      · intro f hf
        exact ⟨f, rfl, hx f hf⟩
      · intro e _
        exact yields_finalizedFromElRpcs h

theorem yields_getCanonicalBlockHash (n : Int) (h : ∃ el_rpc ∈ el_rpcs, el_rpc ∈ up) :
    Yields number up (getCanonicalBlockHash el_rpcs n) fun hash => hash ≠ none := by
  unfold getCanonicalBlockHash
  generalize false = any_provider_answered
  induction el_rpcs generalizing any_provider_answered with
  | nil =>
      obtain ⟨_, hmem, _⟩ := h
      cases hmem
  | cons el_rpc rest ih =>
      refine Act.follows_bind.mpr (follows_await.mpr ⟨trivial, fun x hx => ?_⟩)
      -- an endpoint without a hash is not up, so one behind it is
      have hrest : (∀ hash, readHashAnswer x ≠ .hash hash) → ∃ el_rpc ∈ rest, el_rpc ∈ up := by
        intro hnone
        obtain ⟨el_rpc', hmem, hup⟩ := h
        rcases List.mem_cons.mp hmem with rfl | hmem
        · obtain ⟨hash, hhash⟩ := hx hup
          exact absurd hhash (hnone hash)
        · exact ⟨el_rpc', hmem, hup⟩
      dsimp only
      cases hread : readHashAnswer x with
      | failed => exact ih (hrest (by simp [hread])) any_provider_answered
      | noHash => exact ih (hrest (by simp [hread])) true
      | hash hash => exact ⟨some hash, rfl, Option.some_ne_none hash⟩

end

end BridgeValidator
