import BridgeValidator.Service.EventIndexer

/-!
# One poll, chunk by chunk

What `poll_events` asks of `index_block_range` and what it makes of the
answers: the chunks follow one another without a gap, the first failure is the
last call, and the returned cursor is the end of the last chunk that came
through.
-/

namespace BridgeValidator

open Interaction

namespace EventIndexer

/-- How far a poll has come, and whether a chunk has failed. -/
structure Progress where
  reached : Nat
  failed : Bool

def Progress.after (p : Progress) (c : Chunk) : Except (Exit BridgeValidatorError) Unit → Progress
  | .ok () => { p with reached := c.to_block }
  | .error _ => { p with failed := true }

/-- The next chunk starts where the last one ended and stays below the bound. -/
def chunking (upper_bound_block : Nat) : Protocol ChunkCalls Progress where
  allows p c := p.failed = false ∧ c.from_block = p.reached + 1 ∧ c.from_block ≤ c.to_block ∧
    c.to_block ≤ upper_bound_block
  admits _ _ _ := True
  next := Progress.after

/-- What a poll takes as done before its first chunk: up to the cursor, or, with
nothing indexed yet, up to the block below the bound. -/
def pollStart (last_processed_block upper_bound_block : Nat) : Progress where
  reached := if last_processed_block = 0 then upper_bound_block - 1 else last_processed_block
  failed := false

variable {max_block_range start_block upper_bound_block last_processed_block : Nat}

/-- How a poll ends. -/
def PollEnds (last_processed_block upper_bound_block : Nat) (p : Progress) :
    Except (Exit BridgeValidatorError) Nat → Prop
  | .ok new_block => new_block = p.reached ∧
      (last_processed_block = 0 → upper_bound_block ≤ new_block)
  | .error (.error _) => p.reached = (pollStart last_processed_block upper_bound_block).reached
  | .error (.panic _) => True

/-! ## The loop -/

/-- How far a poll has come, and how its last call ended. -/
structure Poll where
  reached : Nat
  outcome : Except (Exit BridgeValidatorError) Unit

def Poll.after (p : Poll) (c : Chunk) : Except (Exit BridgeValidatorError) Unit → Poll
  | .ok () => ⟨c.to_block, .ok ()⟩
  | .error e => { p with outcome := .error e }

/-- What `chunking` keeps of it. -/
def Poll.progress (p : Poll) : Progress := ⟨p.reached, !p.outcome.isOk⟩

/-- The next chunk starts where the last one ended, is not too wide, stays below
the bound, and there is none after a failure. -/
def polling (max_block_range upper_bound_block : Nat) : Protocol ChunkCalls Poll where
  allows p c := p.outcome = .ok () ∧ c.from_block = p.reached + 1 ∧ c.from_block ≤ c.to_block ∧
    c.to_block < c.from_block + max_block_range ∧ c.to_block ≤ upper_bound_block
  admits _ _ _ := True
  next := Poll.after

/-- What the poll returns, read off its calls: an error only if nothing has come
through before it. -/
def Poll.Returns (p : Poll) (start upper_bound_block : Nat)
    (r : Except (Exit BridgeValidatorError) Nat) : Prop :=
  start ≤ p.reached ∧ match p.outcome with
    | .ok () => upper_bound_block ≤ p.reached ∧ r = .ok p.reached
    | .error (.error e) => r = if p.reached = start then .error (.error e) else .ok p.reached
    | .error (.panic m) => r = .error (.panic m)

theorem Poll.returns_ok {n start : Nat} (hlow : start ≤ n) (hdone : upper_bound_block ≤ n) :
    Poll.Returns ⟨n, .ok ()⟩ start upper_bound_block (.ok n) := ⟨hlow, hdone, rfl⟩

/-- The sum fits. -/
theorem follows_u64Add {a b : Nat} {σ : Type} {P : Protocol ChunkCalls σ} {g : σ}
    {Q : σ → Except (Exit BridgeValidatorError) Nat → Prop} (hfits : a + b ≤ u64Max) :
    Act.Follows P g (u64Add a b) Q ↔ Q g (.ok (a + b)) := by
  rw [u64Add, if_pos hfits]
  exact Act.follows_pure

/-- The difference is not negative. -/
theorem follows_u64Sub {a b : Nat} {σ : Type} {P : Protocol ChunkCalls σ} {g : σ}
    {Q : σ → Except (Exit BridgeValidatorError) Nat → Prop} (hfits : b ≤ a) :
    Act.Follows P g (u64Sub a b) Q ↔ Q g (.ok (a - b)) := by
  rw [u64Sub, if_pos hfits]
  exact Act.follows_pure

theorem polls_pollChunks (hb : upper_bound_block ≤ u64Max) (hmax : 1 ≤ max_block_range)
    (hpos : 1 ≤ start_block) (rounds chunk_start : Nat) {indexed_through : Nat}
    (hstart : chunk_start = indexed_through + 1) (hfirst : start_block ≤ chunk_start)
    (hrounds : upper_bound_block ≤ indexed_through + rounds) :
    Act.Follows (polling max_block_range upper_bound_block) ⟨indexed_through, .ok ()⟩
      (pollChunks max_block_range start_block upper_bound_block rounds chunk_start
        indexed_through)
      fun p r => p.Returns (start_block - 1) upper_bound_block r := by
  induction rounds generalizing chunk_start indexed_through with
  | zero =>
      -- out of rounds is out of blocks
      have hdone : ¬ chunk_start ≤ upper_bound_block := by omega
      rw [pollChunks, if_neg hdone]
      exact Poll.returns_ok (by omega) (by omega)
  | succ rounds ih =>
      rw [pollChunks]
      split
      · rename_i hle
        have hspan : chunk_start ≤ min (saturatingAdd chunk_start (max_block_range - 1))
            upper_bound_block := by
          unfold saturatingAdd
          omega
        have hwidth : min (saturatingAdd chunk_start (max_block_range - 1)) upper_bound_block <
            chunk_start + max_block_range := by
          unfold saturatingAdd
          omega
        have hto : min (saturatingAdd chunk_start (max_block_range - 1)) upper_bound_block ≤
            upper_bound_block := min_le_right _ _
        refine Act.follows_bind.mpr ((follows_u64Sub hmax).mpr ?_)
        refine Act.follows_bind.mpr (Act.follows_attempt.mpr ?_)
        generalize min (saturatingAdd chunk_start (max_block_range - 1)) upper_bound_block =
          chunk_end at hspan hwidth hto ⊢
        have hlow : start_block - 1 ≤ indexed_through := by omega
        refine ⟨⟨rfl, hstart, hspan, hwidth, hto⟩, ?_⟩
        rintro ((e | m) | _) -
        · -- the first failure ends the poll
          refine Act.follows_ite.mpr ⟨fun hdone => ⟨hlow, ?_⟩, fun hnone => ⟨hlow, ?_⟩⟩
          · have hreached : indexed_through ≠ start_block - 1 := by omega
            exact (if_neg hreached).symm
          · have hreached : indexed_through = start_block - 1 := by omega
            exact (if_pos hreached).symm
        · exact ⟨hlow, rfl⟩
        · show Act.Follows (polling _ _) ⟨chunk_end, .ok ()⟩ _ _
          refine Act.follows_ite.mpr ⟨fun hlast => ?_, fun hlast => ?_⟩
          · exact Poll.returns_ok (by omega) (by omega)
          · refine Act.follows_bind.mpr ((follows_u64Add (by omega)).mpr ?_)
            exact ih _ rfl (by omega) (by omega)
      · rename_i hdone
        exact Poll.returns_ok (by omega) (by omega)

/-- **A poll calls chunk after chunk, and returns what its calls add up to.** -/
theorem polls_pollEvents (hb : upper_bound_block ≤ u64Max) (hmax : 1 ≤ max_block_range) :
    Act.Follows (polling max_block_range upper_bound_block)
      ⟨(pollStart last_processed_block upper_bound_block).reached, .ok ()⟩
      (pollEvents max_block_range last_processed_block upper_bound_block)
      fun p r => p.Returns (pollStart last_processed_block upper_bound_block).reached
        upper_bound_block r := by
  unfold pollEvents pollStart
  by_cases hle : upper_bound_block ≤ last_processed_block
  · rw [if_pos hle]
    have hreached : last_processed_block =
        if last_processed_block = 0 then upper_bound_block - 1 else last_processed_block := by
      split <;> omega
    exact ⟨le_refl _, hle.trans hreached.le, congrArg Except.ok hreached⟩
  · rw [if_neg hle]
    have htotal : ∀ start_block, 1 ≤ start_block → start_block ≤ upper_bound_block →
        Act.Follows (polling max_block_range upper_bound_block) ⟨start_block - 1, .ok ()⟩ (do
          let total_blocks ← u64Add (← u64Sub upper_bound_block start_block) 1
          pollChunks max_block_range start_block upper_bound_block total_blocks start_block
            (start_block - 1))
          fun p r => p.Returns (start_block - 1) upper_bound_block r := by
      intro start_block hpos hupper
      refine Act.follows_bind.mpr ((follows_u64Sub hupper).mpr ?_)
      refine Act.follows_bind.mpr ((follows_u64Add (by omega)).mpr ?_)
      exact polls_pollChunks hb hmax hpos _ _ (by omega) (le_refl _) (by omega)
    by_cases hlast : last_processed_block = 0
    · simp only [hlast, if_true]
      exact htotal upper_bound_block (by omega) (le_refl _)
    · simp only [hlast, if_false]
      refine Act.follows_bind.mpr ((follows_u64Add (by omega)).mpr ?_)
      exact htotal (last_processed_block + 1) (by omega) (by omega)

/-- Reading the cursor off the end of the last chunk that came through. -/
theorem Poll.Returns.ends {p : Poll} {r : Except (Exit BridgeValidatorError) Nat}
    (h : p.Returns (pollStart last_processed_block upper_bound_block).reached
      upper_bound_block r) :
    PollEnds last_processed_block upper_bound_block p.progress r := by
  obtain ⟨hlow, h⟩ := h
  have hcold : last_processed_block = 0 →
      (pollStart last_processed_block upper_bound_block).reached = upper_bound_block - 1 :=
    fun hlast => if_pos hlast
  obtain ⟨reached, (e | m) | _⟩ := p
  · by_cases hnone : reached = (pollStart last_processed_block upper_bound_block).reached
    · obtain rfl := h.trans (if_pos hnone)
      exact hnone
    · obtain rfl := h.trans (if_neg hnone)
      refine ⟨rfl, fun hlast => ?_⟩
      have hstart := hcold hlast
      have hreached : (pollStart last_processed_block upper_bound_block).reached < reached :=
        lt_of_le_of_ne hlow (Ne.symm hnone)
      show upper_bound_block ≤ reached
      omega
  · obtain rfl : r = _ := h
    trivial
  · obtain ⟨hdone, rfl⟩ := h
    exact ⟨rfl, fun _ => hdone⟩

/-- A poll, seen without the width of its chunks. -/
theorem follows_pollEvents (hb : upper_bound_block ≤ u64Max) (hmax : 1 ≤ max_block_range) :
    Act.Follows (chunking upper_bound_block) (pollStart last_processed_block upper_bound_block)
      (pollEvents max_block_range last_processed_block upper_bound_block)
      (PollEnds last_processed_block upper_bound_block) := by
  refine Prog.Follows.project Poll.progress ?_ ?_ (fun _ _ h => h.ends) (polls_pollEvents hb hmax)
  · rintro ⟨reached, outcome⟩ c x ⟨rfl, -⟩ -
    refine ⟨trivial, ?_⟩
    rcases x with e | a <;> rfl
  · rintro ⟨reached, outcome⟩ c ⟨rfl, hfrom, hspan, -, hto⟩
    exact ⟨rfl, hfrom, hspan, hto⟩

/-! ## What a poll covers -/

variable {p : Progress} {tr : Trace ChunkCalls}

theorem reached_le_after (h : (chunking upper_bound_block).Allowed p tr) :
    p.reached ≤ ((chunking upper_bound_block).after p tr).reached ∧
      ((chunking upper_bound_block).after p tr).reached ≤ max p.reached upper_bound_block := by
  induction tr generalizing p with
  | nil => exact ⟨le_refl _, le_max_left _ _⟩
  | cons e tr ih =>
      obtain ⟨⟨-, hfrom, hspan, hto⟩, htail⟩ := h
      obtain ⟨c, x⟩ := e
      have hih := ih htail
      cases x with
      | error e => exact hih
      | ok a =>
          simp only [chunking, Progress.after] at hih hfrom hspan hto
          simp only [Protocol.after_cons, chunking, Progress.after]
          omega

theorem span_of_allowed (h : (chunking upper_bound_block).Allowed p tr) {e : Event ChunkCalls}
    (he : e ∈ tr) : e.op.from_block ≤ e.op.to_block := by
  induction tr generalizing p with
  | nil => cases he
  | cons d tr ih =>
      rcases List.mem_cons.mp he with rfl | he
      · exact h.1.2.2.1
      · exact ih h.2 he

/-- The block lies in a chunk for which `index_block_range` returned `Ok`. -/
def Covers (tr : Trace ChunkCalls) (n : Nat) : Prop :=
  ∃ c, ⟨c, .ok ()⟩ ∈ tr ∧ c.from_block ≤ n ∧ n ≤ c.to_block

theorem covers_cons_ok {c : Chunk} {n : Nat} :
    Covers (⟨c, .ok ()⟩ :: tr) n ↔ c.from_block ≤ n ∧ n ≤ c.to_block ∨ Covers tr n := by
  constructor
  · rintro ⟨c', hc', hn⟩
    rcases List.mem_cons.mp hc' with heq | hc'
    · cases heq
      exact Or.inl hn
    · exact Or.inr ⟨c', hc', hn⟩
  · rintro (hn | ⟨c', hc', hn⟩)
    · exact ⟨c, List.mem_cons_self, hn⟩
    · exact ⟨c', List.mem_cons_of_mem _ hc', hn⟩

theorem covers_cons_error {c : Chunk} {e : Exit BridgeValidatorError} {n : Nat} :
    Covers (⟨c, .error e⟩ :: tr) n ↔ Covers tr n := by
  constructor
  · rintro ⟨c', hc', hn⟩
    rcases List.mem_cons.mp hc' with heq | hc'
    · cases heq
    · exact ⟨c', hc', hn⟩
  · rintro ⟨c', hc', hn⟩
    exact ⟨c', List.mem_cons_of_mem _ hc', hn⟩

/-- The blocks covered are exactly those the poll has gone past. -/
theorem covers_iff_of_allowed (h : (chunking upper_bound_block).Allowed p tr) {n : Nat} :
    Covers tr n ↔ p.reached < n ∧ n ≤ ((chunking upper_bound_block).after p tr).reached := by
  induction tr generalizing p with
  | nil =>
      constructor
      · rintro ⟨c, hc, -⟩
        cases hc
      · rintro ⟨hlo, hhi⟩
        exact absurd hhi (not_le.mpr hlo)
  | cons e tr ih =>
      obtain ⟨⟨-, hfrom, hspan, -⟩, htail⟩ := h
      obtain ⟨c, x⟩ := e
      cases x with
      | error e => exact covers_cons_error.trans (ih htail)
      | ok a =>
          have hgrow := (reached_le_after htail).1
          rw [covers_cons_ok, ih htail, Protocol.after_cons]
          simp only [chunking, Progress.after] at hgrow hfrom hspan ⊢
          omega

/-! ## What a poll calls and returns -/

/-- A poll's calls and its result, for any outcomes of the calls. -/
structure Polled (max_block_range last_processed_block upper_bound_block : Nat)
    (tr : Trace ChunkCalls) (r : Except (Exit BridgeValidatorError) Nat) : Prop where
  /-- nothing to do -/
  idle : upper_bound_block ≤ last_processed_block → tr = [] ∧ r = .ok last_processed_block
  /-- where the first range starts -/
  first : last_processed_block < upper_bound_block → ∃ e rest, tr = e :: rest ∧ e.op.from_block =
    if last_processed_block = 0 then upper_bound_block else last_processed_block + 1
  /-- a call comes after a success only, and goes on where that one ended -/
  consecutive : tr.IsChain fun d e => d.ans = .ok () ∧ e.op.from_block = d.op.to_block + 1
  /-- every range is non-empty, of at most `max_block_range` blocks, below the bound -/
  bounded : ∀ e ∈ tr, e.op.from_block ≤ e.op.to_block ∧
    e.op.to_block - e.op.from_block + 1 ≤ max_block_range ∧ e.op.to_block ≤ upper_bound_block
  /-- an error is that of the first range -/
  fails : ∀ e, r = .error (.error e) ↔ ∃ c, tr = [⟨c, .error (.error e)⟩]
  /-- a cursor is the end of the last range that came through -/
  returns : ∀ n, r = .ok n → last_processed_block ≤ n ∧
    (last_processed_block < upper_bound_block → ∃ tr₁ c tr₂, tr = tr₁ ++ ⟨c, .ok ()⟩ :: tr₂ ∧
      n = c.to_block ∧ ∀ e ∈ tr₂, e.ans ≠ .ok ())
  /-- and what came through are the blocks from the first one to there -/
  covers : ∀ n, r = .ok n → last_processed_block < upper_bound_block → ∀ b, Covers tr b ↔
    (if last_processed_block = 0 then upper_bound_block else last_processed_block + 1) ≤ b ∧ b ≤ n
  /-- all of them, if nothing failed -/
  completes : last_processed_block < upper_bound_block → (∀ e ∈ tr, e.ans = .ok ()) →
    r = .ok upper_bound_block
  /-- and a panic is one of `index_block_range`, not of the arithmetic here -/
  panics : ∀ m, r = .error (.panic m) ↔ ∃ c, ⟨c, .error (.panic m)⟩ ∈ tr

variable {q : Poll}

/-- The last call is the only one that may have failed. -/
theorem outcome_of_allowed (h : (polling max_block_range upper_bound_block).Allowed q tr)
    (hq : q.outcome = .ok ()) :
    ((∀ e ∈ tr, e.ans = .ok ()) ∧
      ((polling max_block_range upper_bound_block).after q tr).outcome = .ok ()) ∨
    ∃ tr₁ c x, tr = tr₁ ++ [⟨c, .error x⟩] ∧ (∀ e ∈ tr₁, e.ans = .ok ()) ∧
      (polling max_block_range upper_bound_block).after q tr =
        ⟨((polling max_block_range upper_bound_block).after q tr₁).reached, .error x⟩ := by
  induction tr generalizing q with
  | nil => exact Or.inl ⟨nofun, hq⟩
  | cons e tr ih =>
      obtain ⟨-, htail⟩ := h
      obtain ⟨c, x | ⟨⟩⟩ := e
      · -- nothing is called after this
        cases tr with
        | nil => exact Or.inr ⟨[], c, x, rfl, nofun, rfl⟩
        | cons d tr => cases htail.1.1
      · rcases ih htail rfl with ⟨hall, hok⟩ | ⟨tr₁, c', x, rfl, hall, hlast⟩
        · exact Or.inl ⟨by simpa using hall, hok⟩
        · exact Or.inr ⟨⟨c, .ok ()⟩ :: tr₁, c', x, rfl, by simpa using hall, hlast⟩

theorem isChain_of_allowed (h : (polling max_block_range upper_bound_block).Allowed q tr) :
    tr.IsChain fun d e => d.ans = .ok () ∧ e.op.from_block = d.op.to_block + 1 := by
  induction tr generalizing q with
  | nil => exact .nil
  | cons d tr ih =>
      cases tr with
      | nil => exact .singleton _
      | cons e tr =>
          refine List.isChain_cons_cons.mpr ⟨?_, ih h.2⟩
          obtain ⟨hok, hfrom, -⟩ := h.2.1
          obtain ⟨c, x | ⟨⟩⟩ := d
          · cases hok
          · exact ⟨rfl, hfrom⟩

theorem bounded_of_allowed (h : (polling max_block_range upper_bound_block).Allowed q tr)
    {e : Event ChunkCalls} (he : e ∈ tr) : e.op.from_block ≤ e.op.to_block ∧
      e.op.to_block - e.op.from_block + 1 ≤ max_block_range ∧
      e.op.to_block ≤ upper_bound_block := by
  induction tr generalizing q with
  | nil => cases he
  | cons d tr ih =>
      rcases List.mem_cons.mp he with rfl | he
      · obtain ⟨-, -, hspan, hwidth, hto⟩ := h.1
        exact ⟨hspan, by omega, hto⟩
      · exact ih h.2 he

/-- After calls that all came through, the cursor is at the end of the last one. -/
theorem reached_of_all_ok (max_block_range upper_bound_block : Nat) (q : Poll)
    (hall : ∀ e ∈ tr, e.ans = .ok ()) :
    (tr = [] ∧ ((polling max_block_range upper_bound_block).after q tr).reached = q.reached) ∨
    ∃ tr₁ c, tr = tr₁ ++ [⟨c, .ok ()⟩] ∧
      ((polling max_block_range upper_bound_block).after q tr).reached = c.to_block := by
  rcases List.eq_nil_or_concat tr with rfl | ⟨tr₁, ⟨c, x⟩, rfl⟩
  · exact Or.inl ⟨rfl, rfl⟩
  · obtain rfl : x = .ok () := hall ⟨c, x⟩ (by simp)
    refine Or.inr ⟨tr₁, c, by simp, ?_⟩
    simp [polling, Poll.after]

/-- Without the width of its chunks, a poll is what `chunking` sees. -/
theorem progress_of_allowed (h : (polling max_block_range upper_bound_block).Allowed q tr) :
    (chunking upper_bound_block).Allowed q.progress tr ∧
      (chunking upper_bound_block).after q.progress tr =
        ((polling max_block_range upper_bound_block).after q tr).progress := by
  induction tr generalizing q with
  | nil => exact ⟨trivial, rfl⟩
  | cons e tr ih =>
      obtain ⟨⟨hok, hfrom, hspan, -, hto⟩, htail⟩ := h
      have hstep : (chunking upper_bound_block).next q.progress e.op e.ans =
          ((polling max_block_range upper_bound_block).next q e.op e.ans).progress := by
        obtain ⟨c, x | ⟨⟩⟩ := e
        · rfl
        · simp [chunking, polling, Poll.progress, Progress.after, Poll.after, hok, Except.isOk,
            Except.toBool]
      obtain ⟨hrest, hafter⟩ := ih htail
      rw [← hstep] at hrest hafter
      have hopen : q.progress.failed = false := by simp [Poll.progress, hok, Except.isOk,
        Except.toBool]
      exact ⟨⟨⟨hopen, hfrom, hspan, hto⟩, hrest⟩, hafter⟩

theorem covers_iff_of_polling (h : (polling max_block_range upper_bound_block).Allowed q tr)
    {n : Nat} : Covers tr n ↔ q.reached < n ∧
      n ≤ ((polling max_block_range upper_bound_block).after q tr).reached := by
  obtain ⟨hchunks, hafter⟩ := progress_of_allowed h
  rw [covers_iff_of_allowed hchunks, hafter]
  rfl

/-- The four ways a poll can end. -/
inductive Ending (upper_bound_block : Nat) : Trace ChunkCalls →
    Except (Exit BridgeValidatorError) Nat → Prop
  | idle {n} (hdone : upper_bound_block ≤ n) : Ending upper_bound_block [] (.ok n)
  | through {tr c} (hall : ∀ e ∈ tr, e.ans = .ok ()) (hdone : upper_bound_block ≤ c.to_block) :
      Ending upper_bound_block (tr ++ [⟨c, .ok ()⟩]) (.ok c.to_block)
  | failed {c e} : Ending upper_bound_block [⟨c, .error (.error e)⟩] (.error (.error e))
  | partly {tr c c' e} (hall : ∀ e ∈ tr, e.ans = .ok ()) :
      Ending upper_bound_block (tr ++ [⟨c, .ok ()⟩, ⟨c', .error (.error e)⟩]) (.ok c.to_block)
  | unwound {tr c m} (hall : ∀ e ∈ tr, e.ans = .ok ()) :
      Ending upper_bound_block (tr ++ [⟨c, .error (.panic m)⟩]) (.error (.panic m))

theorem ending_of_returns {start : Nat} {r : Except (Exit BridgeValidatorError) Nat}
    (h : (polling max_block_range upper_bound_block).Allowed ⟨start, .ok ()⟩ tr)
    (hret : ((polling max_block_range upper_bound_block).after ⟨start, .ok ()⟩ tr).Returns start
      upper_bound_block r) : Ending upper_bound_block tr r := by
  obtain ⟨-, hret⟩ := hret
  rcases outcome_of_allowed h rfl with ⟨hall, hok⟩ | ⟨tr₁, c, x, rfl, hall, hlast⟩
  · rw [hok] at hret
    obtain ⟨hdone, rfl⟩ := hret
    rcases reached_of_all_ok max_block_range upper_bound_block ⟨start, .ok ()⟩ hall with
      ⟨rfl, hreached⟩ | ⟨tr₁, c, rfl, hreached⟩
    · exact .idle hdone
    · rw [hreached] at hdone ⊢
      exact .through (fun e he => hall e (List.mem_append_left _ he)) hdone
  · rw [hlast] at hret
    cases x with
    | panic m =>
        obtain rfl : r = _ := hret
        exact .unwound hall
    | error e =>
        obtain rfl : r = _ := hret
        rcases reached_of_all_ok max_block_range upper_bound_block ⟨start, .ok ()⟩ hall with
          ⟨rfl, hreached⟩ | ⟨tr₂, c', rfl, hreached⟩
        · show Ending _ _ (if _ = start then _ else _)
          rw [hreached, if_pos rfl]
          exact .failed
        · -- the chunk before the failure lies above the start
          have hbefore := ((Protocol.allowed_append _).mp h).1
          have hspan := (bounded_of_allowed hbefore (e := ⟨c', .ok ()⟩) (by simp)).1
          have hcovers : Covers (tr₂ ++ [⟨c', .ok ()⟩]) c'.to_block :=
            ⟨c', by simp, hspan, le_refl _⟩
          have habove : start < c'.to_block := ((covers_iff_of_polling hbefore).mp hcovers).1
          show Ending _ _ (if _ = start then _ else _)
          rw [hreached, if_neg habove.ne', List.append_assoc]
          exact .partly fun e he => hall e (List.mem_append_left _ he)

namespace Ending

variable {r : Except (Exit BridgeValidatorError) Nat}

theorem ne_ok {tr₁ : Trace ChunkCalls} (hall : ∀ e ∈ tr₁, e.ans = .ok ()) {c : Chunk}
    {x : Exit BridgeValidatorError} : ⟨c, .error x⟩ ∉ tr₁ := by
  intro hmem
  cases hall _ hmem

theorem error_iff (h : Ending upper_bound_block tr r) {e : BridgeValidatorError} :
    r = .error (.error e) ↔ ∃ c, tr = [⟨c, .error (.error e)⟩] := by
  cases h with
  | idle hdone => simp
  | through hall hdone => simp [List.append_eq_singleton_iff]
  | failed => simp [eq_comm]
  | partly hall => simp [List.append_eq_singleton_iff]
  | unwound hall => simp [List.append_eq_singleton_iff]

theorem panic_iff (h : Ending upper_bound_block tr r) {m : String} :
    r = .error (.panic m) ↔ ∃ c, ⟨c, .error (.panic m)⟩ ∈ tr := by
  cases h with
  | idle hdone => simp
  | through hall hdone => simp [ne_ok hall]
  | failed => simp
  | partly hall => simp [ne_ok hall]
  | unwound hall => simp [ne_ok hall, eq_comm]

theorem last_ok {n : Nat} (h : Ending upper_bound_block tr (.ok n)) (hne : tr ≠ []) :
    ∃ tr₁ c tr₂, tr = tr₁ ++ ⟨c, .ok ()⟩ :: tr₂ ∧ n = c.to_block ∧
      ∀ e ∈ tr₂, e.ans ≠ .ok () := by
  cases h with
  | idle hdone => exact absurd rfl hne
  | through hall hdone => exact ⟨_, _, [], rfl, rfl, nofun⟩
  | partly hall => exact ⟨_, _, _, rfl, rfl, by simp⟩

theorem all_ok (h : Ending upper_bound_block tr r) (hne : tr ≠ [])
    (hall : ∀ e ∈ tr, e.ans = .ok ()) (hto : ∀ e ∈ tr, e.op.to_block ≤ upper_bound_block) :
    r = .ok upper_bound_block := by
  cases h with
  | idle hdone => exact absurd rfl hne
  | @through tr₁ c _ hdone =>
      have hle : c.to_block ≤ upper_bound_block := hto ⟨c, .ok ()⟩ (by simp)
      rw [le_antisymm hle hdone]
  | @failed c e => cases hall _ List.mem_cons_self
  | @partly tr₁ c c' e _ => cases hall ⟨c', .error (.error e)⟩ (by simp)
  | @unwound tr₁ c m _ => cases hall ⟨c, .error (.panic m)⟩ (by simp)

end Ending

theorem Poll.Returns.eq_reached {p : Poll} {start n : Nat}
    (h : p.Returns start upper_bound_block (.ok n)) : n = p.reached := by
  obtain ⟨reached, (e | m) | _⟩ := p
  · have hret : (Except.ok n : Except (Exit BridgeValidatorError) Nat) =
        if reached = start then .error (.error e) else .ok reached := h.2
    split at hret
    · cases hret
    · exact Except.ok.inj hret
  · cases h.2
  · exact Except.ok.inj h.2.2

/-- Where a poll with something to do starts. -/
theorem pollStart_succ (h : last_processed_block < upper_bound_block) :
    (pollStart last_processed_block upper_bound_block).reached + 1 =
      if last_processed_block = 0 then upper_bound_block else last_processed_block + 1 := by
  unfold pollStart
  dsimp only
  split <;> omega

theorem polled_of_runs (hb : upper_bound_block ≤ u64Max) (hmax : 1 ≤ max_block_range)
    {r : Except (Exit BridgeValidatorError) Nat}
    (h : Prog.Runs (pollEvents max_block_range last_processed_block upper_bound_block) tr r) :
    Polled max_block_range last_processed_block upper_bound_block tr r := by
  have hadm := (polling max_block_range upper_bound_block).admitted_of_all
    (fun _ _ _ => trivial) ⟨(pollStart last_processed_block upper_bound_block).reached, .ok ()⟩ tr
  obtain ⟨hallowed, hret⟩ := (polls_pollEvents hb hmax).of_runs h hadm
  have hend := ending_of_returns hallowed hret
  have hsome : last_processed_block < upper_bound_block → tr ≠ [] := by
    rintro hlt rfl
    have hdone : upper_bound_block ≤ (pollStart last_processed_block upper_bound_block).reached :=
      hret.2.1
    have hstart := pollStart_succ hlt
    split at hstart <;> omega
  refine
    { idle := fun hle => ?_
      first := fun hlt => ?_
      consecutive := isChain_of_allowed hallowed
      bounded := fun e he => bounded_of_allowed hallowed he
      fails := fun e => hend.error_iff
      returns := fun n hn => ?_
      covers := fun n hn hlt b => ?_
      completes := fun hlt hall => hend.all_ok (hsome hlt) hall
        fun e he => (bounded_of_allowed hallowed he).2.2
      panics := fun m => hend.panic_iff }
  · rw [pollEvents, if_pos hle] at h
    exact ⟨h.1, h.2.symm⟩
  · cases tr with
    | nil => exact absurd rfl (hsome hlt)
    | cons e rest => exact ⟨e, rest, rfl, hallowed.1.2.1.trans (pollStart_succ hlt)⟩
  · subst hn
    refine ⟨?_, fun hlt => hend.last_ok (hsome hlt)⟩
    rw [hret.eq_reached]
    refine le_trans ?_ hret.1
    unfold pollStart
    dsimp only
    split <;> omega
  · subst hn
    rw [covers_iff_of_polling hallowed, ← hret.eq_reached, ← pollStart_succ hlt]
    rfl

/-- **Chunked polling.** Whatever becomes of its chunks, a poll comes to an end, its
ranges follow one another from the first block to the first failure, and the
blocks up to the cursor it returns are those that were indexed. -/
theorem pollEvents_polled (cfg : Config) (last_processed_block upper_bound_block : UInt64)
    (outcomes : Nat → Except (Exit BridgeValidatorError) Unit) :
    let run := (pollEvents cfg.max_block_range last_processed_block.toNat
      upper_bound_block.toNat).exec (fun n (_ : Chunk) => (outcomes n, n + 1)) 0
    Polled cfg.max_block_range last_processed_block.toNat upper_bound_block.toNat run.1
      run.2.1 := by
  intro run
  have hruns : Prog.Runs (pollEvents cfg.max_block_range last_processed_block.toNat
      upper_bound_block.toNat) run.1 run.2.1 := Prog.exec_runs _ _ _
  have hb : upper_bound_block.toNat ≤ u64Max := Nat.le_of_lt_succ upper_bound_block.toNat_lt
  exact polled_of_runs hb cfg.max_block_range_pos hruns

end EventIndexer

end BridgeValidator
