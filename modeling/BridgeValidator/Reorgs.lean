import BridgeValidator.Chains
import BridgeValidator.CursorCoverage
import BridgeValidator.IndexerLosses

/-!
# Reorganisations

One truthful provider, whose blocks may be replaced as long as they are not
finalized. An indexer asks for every block once: what it stores are the logs of
the block the provider showed at that moment. The logs of that block are
represented in the table, unless a row with their key is there already; the
logs of a block that takes its place later are never asked for.
-/

namespace BridgeValidator

open Interaction

/-! ## The provider -/

/-- A block, with all its logs. -/
structure Block where
  hash : B256
  logs : List RpcLog

/-- A log that has been mined in this block. -/
structure RpcLog.MinedIn (log : RpcLog) (n : Nat) (hash : B256) : Prop where
  block_number : log.block_number = some n
  block_hash : log.block_hash = some hash
  transaction_hash : log.transaction_hash.isSome = true
  log_index : log.log_index.isSome = true

/-- The chain the provider follows, by number, and its two heads. -/
structure Fork where
  block : Nat → Block
  safe : Nat
  finalized : Nat
  finalized_le : finalized ≤ safe
  mined : ∀ n, ∀ log ∈ (block n).logs, log.MinedIn n (block n).hash

/-- The logs a filter asks for: of this contract, and with the hash of this
event as their first topic. -/
def Filter.picks (lib : Externals) (filter : Filter) (log : RpcLog) : Bool :=
  decide (log.address = filter.address) &&
    log.topics.head? == some (lib.keccak256 filter.event.toUTF8.data.toList)

/-- The logs of an indexer's own contract and event. -/
def EventIndexer.wants (lib : Externals) (ix : EventIndexer) (log : RpcLog) : Bool :=
  Filter.picks lib ⟨ix.contract_address, ix.event_name, 0, 0⟩ log

def Fork.logs (lib : Externals) (fork : Fork) (filter : Filter) : List RpcLog :=
  (List.range' filter.from_block (filter.to_block + 1 - filter.from_block)).flatMap fun n =>
    (fork.block n).logs.filter (filter.picks lib)

/-- One provider for the chain, behind this URL. It answers truthfully or fails to,
and replaces blocks above its finalized head. -/
def World.provider (lib : Externals) (chain : Chain) (url : String) : World where
  State := Fork
  init _ := True
  rpc w r x w' := w' = w ∧ match r, x with
    | .ethGetBlockByNumber url' .safe, x =>
        url' = url → ∀ n, readSafeProbe x = .Block n → n = w.safe
    | .ethGetBlockByNumber url' .finalized, x =>
        url' = url → ∀ n, readElFinalized x = .ok n → n = w.finalized
    | .ethGetBlockByNumber url' (.number n), x => url' = url → ∀ h, readHashAnswer x = .hash h →
        ∃ k : Nat, n = k ∧ h = (w.block k).hash.debug
    | .getLogs chain' filter, .ok logs => chain' = chain → logs = w.logs lib filter
    | _, _ => True
  tick w w' := w.finalized ≤ w'.finalized ∧ ∀ n ≤ w.finalized, w'.block n = w.block n

variable {lib : Externals} {cfg : Config} {W : World}

theorem Fork.mem_logs {fork : Fork} {filter : Filter} {log : RpcLog} {n : Nat}
    (hfrom : filter.from_block ≤ n) (hto : n ≤ filter.to_block) (hlog : log ∈ (fork.block n).logs)
    (hpicks : filter.picks lib log = true) : log ∈ fork.logs lib filter := by
  refine List.mem_flatMap.mpr ⟨n, ?_, List.mem_filter.mpr ⟨hlog, hpicks⟩⟩
  rw [List.mem_range'_1]
  omega

/-! ## What has been fetched -/

/-- The indexer has got the logs of a range with block `n` in it. -/
def Label.Fetches (i : IndexerId) (n : Nat) (l : Label) : Prop :=
  ∃ chain filter logs, l = .call (.indexer i) ⟨.rpc (.getLogs chain filter), .ok logs⟩ ∧
    filter.from_block ≤ n ∧ n ≤ filter.to_block

/-- A chunk that came through begins with its logs. -/
theorem EventIndexer.getLogs_of_indexed {ix : EventIndexer} {c : Chunk} {tr : Trace Calls}
    (h : Prog.Runs (ix.indexBlockRange lib c) tr (.ok ())) :
    ∃ logs, ⟨.rpc (.getLogs ix.provider
      ⟨ix.contract_address, ix.event_name, c.from_block, c.to_block⟩), .ok logs⟩ ∈ tr := by
  obtain ⟨tr₁, r, tr₂, rfl, hfirst, hrest⟩ := Prog.runs_bind.mp h
  obtain ⟨x, rest, rfl, rfl, rfl⟩ := hfirst
  cases x with
  | error e =>
      obtain ⟨-, hend⟩ := hrest
      cases hend
  | ok logs => exact ⟨logs, by simp⟩

/-- What a cycle has covered it has fetched. -/
theorem EventIndexer.Reads.fetched {ix : EventIndexer} {last new n : Nat} {tr : Trace Calls}
    {r : CycleRecord} (h : Reads lib ix last tr r new) (hn : Covers r.chunks n) :
    ∃ filter logs, ⟨.rpc (.getLogs ix.provider filter), .ok logs⟩ ∈ tr ∧
      filter.from_block ≤ n ∧ n ≤ filter.to_block := by
  have hlinked : ∀ {chunks : Trace ChunkCalls} {tr : Trace Calls},
      @Prog.Linked ChunkCalls Calls (fun c => ix.indexBlockRange lib c) chunks tr →
      Covers chunks n → ∃ filter logs, ⟨.rpc (.getLogs ix.provider filter), .ok logs⟩ ∈ tr ∧
        filter.from_block ≤ n ∧ n ≤ filter.to_block := by
    intro chunks tr hlink
    induction hlink with
    | nil =>
        rintro ⟨c, hc, -⟩
        cases hc
    | @cons c x tr₁ outer inner hrun hlink ih =>
        intro hn
        cases x with
        | error e =>
            obtain ⟨filter, logs, hmem, hle⟩ := ih (covers_cons_error.mp hn)
            exact ⟨filter, logs, List.mem_append_right _ hmem, hle⟩
        | ok a =>
            rcases covers_cons_ok.mp hn with hle | hn
            · obtain ⟨logs, hmem⟩ := getLogs_of_indexed hrun
              exact ⟨_, logs, List.mem_append_left _ hmem, hle⟩
            · obtain ⟨filter, logs, hmem, hle⟩ := ih hn
              exact ⟨filter, logs, List.mem_append_right _ hmem, hle⟩
  cases h with
  | unresolved hres =>
      obtain ⟨c, hc, -⟩ := hn
      cases hc
  | advanced hres hpoll hlink | failed hres hpoll hlink =>
      obtain ⟨filter, logs, hmem, hle⟩ := hlinked hlink hn
      exact ⟨filter, logs, List.mem_append_right _ hmem, hle⟩

/-- The indexer asks for a range that begins at block `n` or before it. -/
def Label.asksUpTo (i : IndexerId) (n : Nat) : Label → Bool
  | .call (.indexer j) ⟨.rpc (.getLogs _ filter), _⟩ => j == i && decide (filter.from_block ≤ n)
  | _ => false

theorem Label.exists_of_asksUpTo {i : IndexerId} {n : Nat} {l : Label}
    (h : l.asksUpTo i n = true) : ∃ chain filter x,
      l = .call (.indexer i) ⟨.rpc (.getLogs chain filter), x⟩ ∧ filter.from_block ≤ n := by
  unfold asksUpTo at h
  split at h
  · simp only [Bool.and_eq_true, beq_iff_eq, decide_eq_true_eq] at h
    obtain ⟨rfl, hfrom⟩ := h
    exact ⟨_, _, _, rfl, hfrom⟩
  · cases h

namespace EventIndexer

/-- No log is asked for at the cursor or below it. -/
def onward (last_processed_block : Nat) : Protocol Calls Unit where
  allows _
    | .rpc (.getLogs _ filter) => last_processed_block < filter.from_block
    | _ => True
  admits _ _ _ := True
  next _ _ _ := ()

variable {ix : EventIndexer} {last_processed_block upper_bound_block : Nat}

theorem onward_ignoresLookups : IgnoresLookups (onward last_processed_block) where
  beacon _ _ := ⟨trivial, fun _ => rfl⟩
  el _ _ _ := ⟨trivial, fun _ => rfl⟩

theorem onward_indexBlockRange {c : Chunk} (hc : last_processed_block < c.from_block) :
    Act.Follows (onward last_processed_block) () (ix.indexBlockRange lib c) fun _ _ => True := by
  refine Act.follows_bind.mpr (follows_await.mpr ⟨hc, ?_⟩)
  rintro (e | logs) -
  · trivial
  · refine Act.follows_bind.mpr (follows_orErr.mpr ⟨?_, fun e he => by cases he⟩)
    rintro _ ⟨⟩
    apply (inserts_storeLogs logs (fun _ _ _ _ _ _ _ _ => trivial) fun _ _ => rfl).mono
    exact fun _ _ _ => trivial

/-- The chunks of a poll begin where it starts or later. -/
theorem onward_pollAndIndex (hb : upper_bound_block ≤ u64Max) :
    Act.Follows (onward last_processed_block) ()
      (ix.pollAndIndex lib last_processed_block upper_bound_block) fun _ _ => True := by
  have hrel : ∀ (p : Progress) (g : Unit) (c : Chunk), last_processed_block ≤ p.reached →
      (chunking upper_bound_block).allows p c →
      Prog.Follows (onward last_processed_block) (fun _ x =>
        (chunking upper_bound_block).admits p c x ∧
          last_processed_block ≤ ((chunking upper_bound_block).next p c x).reached) g
        (ix.indexBlockRange lib c) := by
    rintro p g c hlast ⟨-, hfrom, hspan, -⟩
    apply (onward_indexBlockRange (by omega)).mono
    rintro _ (e | a) -
    · exact ⟨trivial, hlast⟩
    · refine ⟨trivial, ?_⟩
      simp only [chunking, Progress.after]
      omega
  refine Prog.follows_interp hrel (fun _ _ _ _ _ => trivial)
    (follows_pollEvents hb ix.config.max_block_range_pos) ?_
  simp only [pollStart]
  split <;> omega

theorem onward_cycle :
    Act.Follows (onward last_processed_block) () (ix.cycle lib last_processed_block)
      fun _ _ => True := by
  refine Act.follows_bind.mpr (Act.follows_attempt.mpr
    ((follows_resolveUpperBound (onward_ignoresLookups.at _ _)).mono ?_))
  rintro _ ((e | m) | upper_bound_block) -
  · trivial
  · trivial
  · refine Act.follows_bind.mpr (Act.follows_attempt.mpr
      ((onward_pollAndIndex (asU64_le _)).mono ?_))
    rintro _ ((_ | _) | _) - <;> trivial

end EventIndexer

namespace Sys

variable {s₀ s m t : Sys W} {l : Label} {ls ls₁ ls₂ : List Label} {i : IndexerId}

/-- How the cursor of an indexer moves: by a round that ends, over blocks that it
has fetched. -/
theorem Step.cursor (hs : s.Coherent lib) (hcur : s.AtCursor) (hrun : (system lib W).Run s₀ ls s)
    (hidle : ∀ v, s₀.running v = none) (hstep : s.Step lib l t) (hend : l.ends = false) :
    t.cursor i = s.cursor i ∨ (s.cursor i ≤ t.cursor i ∧ t.cursor i ≠ 0 ∧
      ∀ n, s.cursor i < n → n ≤ t.cursor i → (s.cursor i = 0 → n = t.cursor i) →
        ∃ l ∈ ls, l.Fetches i n) := by
  cases hstep with
  | @finish v r result hr hrest =>
      by_cases hv : v = .indexer i
      · subst hv
        obtain ⟨-, hsteps⟩ := hs _ r hr
        have hjob := hcur i r hr
        rw [hrest, hjob] at hsteps
        -- the round is over, so its trace is a run of a cycle
        obtain ⟨tr₁, x, tr₂, htrace, hcycle, hret⟩ := Prog.runs_bind.mp hsteps.runs
        cases x with
        | error e =>
            obtain ⟨-, hret⟩ := hret
            cases hret
        | ok new_block =>
            obtain ⟨rfl, hret⟩ := hret
            obtain rfl := Except.ok.inj hret
            obtain ⟨record, hreads⟩ := EventIndexer.runs_cycle_iff_reads.mp hcycle
            have hmoves := hreads.moves
            have hnew : (s.done (.indexer i) r.job (some new_block)).cursor i = new_block := by
              rw [hjob]
              exact Function.update_self _ _ _
            rw [hnew]
            by_cases hzero : new_block = 0
            · left
              have := hmoves.le
              omega
            · refine Or.inr ⟨hmoves.le, hzero, fun n hlo hhi hcold => ?_⟩
              have hcovers : EventIndexer.Covers record.chunks n := by
                refine (hmoves.covers n).mpr ⟨?_, hhi⟩
                unfold EventIndexer.pollStart
                by_cases h0 : s.cursor i = 0
                · have hbound := hmoves.cold h0 hzero
                  simp only [if_pos h0, EventIndexer.CycleRecord.upTo, hbound, Option.getD_some]
                  have := hcold h0
                  omega
                · simp only [if_neg h0]
                  omega
              obtain ⟨filter, logs, hmem, hle⟩ := hreads.fetched hcovers
              have hcall : ⟨.rpc (.getLogs (i.indexer s.config).provider filter), .ok logs⟩ ∈
                  r.trace := by
                rw [htrace]
                exact List.mem_append_left _ hmem
              exact ⟨_, call_mem_labels hrun hidle hr _ hcall, _, filter, logs, rfl, hle⟩
      · exact Or.inl (cursor_done (hs v r hr).1 hv)
  | panic hr hrest => cases hend
  | restart => cases hend
  | _ => exact Or.inl rfl

theorem atCursor_of_run {db : Db} {w : W.State}
    (hrun : (system lib W).Run (Sys.boot cfg db w) ls s) : s.Coherent lib ∧ s.AtCursor := by
  induction hrun with
  | nil => exact ⟨coherent_boot, nofun⟩
  | snoc _ hstep ih => exact ⟨ih.1.step hstep, ih.2.step ih.1 hstep⟩

/-- The cursor of an indexer never falls back. -/
theorem cursor_le {db : Db} {w : W.State}
    (h₁ : (system lib W).Run (Sys.boot cfg db w) ls₁ m)
    (h₂ : (system lib W).Run m ls₂ t) (hends : ∀ l ∈ ls₂, l.ends = false) :
    m.cursor i ≤ t.cursor i := by
  induction h₂ with
  | nil => exact le_refl _
  | @snoc ls s l u h₂ hstep ih =>
      have hle := ih fun l hl => hends l (List.mem_append_left _ hl)
      have hend := hends l (List.mem_append_right _ (List.mem_singleton_self _))
      obtain ⟨hs, hcur⟩ := atCursor_of_run (h₁.append h₂)
      rcases hstep.cursor hs hcur (h₁.append h₂) (fun _ => rfl) hend with heq | ⟨hgrow, -⟩
      · rw [heq]
        exact hle
      · exact le_trans hle hgrow

/-- The cursor's own block has been fetched. -/
theorem fetched_cursor {db : Db} {w : W.State}
    (hrun : (system lib W).Run (Sys.boot cfg db w) ls s) (hends : ∀ l ∈ ls, l.ends = false)
    (hcursor : s.cursor i ≠ 0) : ∃ l ∈ ls, l.Fetches i (s.cursor i) := by
  induction hrun with
  | nil => exact absurd rfl hcursor
  | @snoc ls s l u hrun hstep ih =>
      obtain ⟨hs, hcur⟩ := atCursor_of_run hrun
      have hends' : ∀ l ∈ ls, l.ends = false := fun l hl => hends l (List.mem_append_left _ hl)
      have hend := hends l (List.mem_append_right _ (List.mem_singleton_self _))
      have hsame : s.cursor i = u.cursor i → ∃ l' ∈ ls ++ [l], l'.Fetches i (u.cursor i) := by
        intro heq
        rw [← heq] at hcursor ⊢
        obtain ⟨l', hl', hf⟩ := ih hends' hcursor
        exact ⟨l', List.mem_append_left _ hl', hf⟩
      rcases hstep.cursor hs hcur hrun (fun _ => rfl) hend with heq | ⟨hle, -, hfetched⟩
      · exact hsame heq.symm
      · rcases Nat.eq_or_lt_of_le hle with heq | hlt
        · exact hsame heq
        · obtain ⟨l', hl', hf⟩ := hfetched (u.cursor i) hlt (le_refl _) fun _ => rfl
          exact ⟨l', List.mem_append_left _ hl', hf⟩

/-- From any cursor but 0 on, the blocks up to a later cursor have been fetched. -/
theorem fetched_of_cursor {db : Db} {w : W.State}
    (h₁ : (system lib W).Run (Sys.boot cfg db w) ls₁ m) (hm : m.cursor i ≠ 0)
    (h₂ : (system lib W).Run m ls₂ t) (hends : ∀ l ∈ ls₁ ++ ls₂, l.ends = false) {n : Nat}
    (hlo : m.cursor i ≤ n) (hhi : n ≤ t.cursor i) : ∃ l ∈ ls₁ ++ ls₂, l.Fetches i n := by
  induction h₂ with
  | nil =>
      obtain rfl : n = m.cursor i := by omega
      rw [List.append_nil] at hends ⊢
      exact fetched_cursor h₁ hends hm
  | @snoc ls s l u h₂ hstep ih =>
      have hends' : ∀ l ∈ ls₁ ++ ls, l.ends = false := by
        intro l' hl'
        apply hends l'
        rw [← List.append_assoc]
        exact List.mem_append_left _ hl'
      have hend := hends l (by simp)
      obtain ⟨hs, hcur⟩ := atCursor_of_run (h₁.append h₂)
      rw [← List.append_assoc]
      by_cases hold : n ≤ s.cursor i
      · obtain ⟨l', hl', hf⟩ := ih hends' hold
        exact ⟨l', List.mem_append_left _ hl', hf⟩
      · rcases hstep.cursor (i := i) hs hcur (h₁.append h₂) (fun _ => rfl) hend with
          heq | ⟨-, -, hfetched⟩
        · omega
        · have hmono : m.cursor i ≤ s.cursor i :=
            cursor_le h₁ h₂ fun l hl => hends' l (List.mem_append_right _ hl)
          obtain ⟨l', hl', hf⟩ := hfetched n (by omega) hhi fun h0 => by omega
          exact ⟨l', List.mem_append_left _ hl', hf⟩

/-- An indexer asks for blocks above its cursor only. -/
theorem Step.asks_onward (hs : s.Coherent lib) (hcur : s.AtCursor) (hstep : s.Step lib l t)
    {n : Nat} (hn : n ≤ s.cursor i) : l.asksUpTo i n = false := by
  by_contra hasks
  obtain ⟨chain, filter, x, rfl, hfrom⟩ :=
    Label.exists_of_asksUpTo (Bool.eq_true_of_not_eq_false hasks)
  cases hstep with
  | @call _ r _ k _ sh hr hrest hans =>
      obtain ⟨-, hsteps⟩ := hs _ r hr
      rw [hcur i r hr, hrest] at hsteps
      have hround : Act.Follows (EventIndexer.onward (s.cursor i)) ()
          (Job.prog lib s.config (.index i (s.cursor i))) fun _ _ => True :=
        Act.follows_bind.mpr (EventIndexer.onward_cycle.mono fun _ r _ => by cases r <;> trivial)
      -- the call is the first of what is left of the round
      have hallow : s.cursor i < filter.from_block := (Prog.Follows.steps hround hsteps
        (Protocol.admitted_of_all _ (fun _ _ _ => trivial) _ _)).1
      omega

/-- A block that the cursor has come to is not asked for again. -/
theorem asks_onward_run {db : Db} {w : W.State}
    (h₁ : (system lib W).Run (Sys.boot cfg db w) ls₁ m) {n : Nat} (hn : n ≤ m.cursor i)
    (h₂ : (system lib W).Run m ls₂ t) (hends : ∀ l ∈ ls₂, l.ends = false) :
    ∀ l ∈ ls₂, l.asksUpTo i n = false := by
  intro l hl
  obtain ⟨ls₃, m', m'', ls₄, rfl, h₃, hstep, -⟩ := h₂.split hl
  obtain ⟨hs, hcur⟩ := atCursor_of_run (h₁.append h₃)
  have hle : m.cursor i ≤ m'.cursor i :=
    cursor_le h₁ h₃ fun l hl => hends l (List.mem_append_left _ hl)
  exact Step.asks_onward hs hcur hstep (hn.trans hle)

/-- A row that is there stays the log it is, until the sender deletes it. -/
theorem row_stays {r : EventLog} {id : Int} (hrun : (system lib W).Run s ls t)
    (hs : s.Coherent lib) (hk : s.shared.db.Keyed) (hr : s.row? id = some r) :
    (∃ r', t.row? id = some r' ∧ r.SameLog r') ∨
      .call .on_chain_sender ⟨.db (.deleteEventLog id), .ok ()⟩ ∈ ls := by
  have hall : t.Coherent lib ∧ t.shared.db.Keyed ∧
      ((∃ r', t.row? id = some r' ∧ r.SameLog r') ∨
        .call .on_chain_sender ⟨.db (.deleteEventLog id), .ok ()⟩ ∈ ls) := by
    induction hrun with
    | nil => exact ⟨hs, hk, Or.inl ⟨r, hr, .refl⟩⟩
    | @snoc ls m l u _ hstep ih =>
        obtain ⟨hm, hkm, hrow⟩ := ih
        refine ⟨hm.step hstep, hstep.keyed hkm, ?_⟩
        rcases hrow with ⟨r', hr', hsame⟩ | hdelete
        · cases hu : u.row? id with
          | none =>
              obtain ⟨rfl, -⟩ := hstep.deleted hm hkm hr' hu
              exact Or.inr (List.mem_append_right _ (List.mem_singleton_self _))
          | some r'' =>
              obtain ⟨r₀, hr₀, hsame'⟩ := hstep.sameLog hkm (hkm.lt_next_of_row? hr') hu
              obtain rfl : r₀ = r' := Option.some.inj (hr₀.symm.trans hr')
              exact Or.inl ⟨r'', rfl, hsame.trans hsame'⟩
        · exact Or.inr (List.mem_append_left _ hdelete)
  exact hall.2.2

end Sys

/-! ## What becomes of the logs -/

/-- The log's own key. -/
structure EventLog.KeyOf (r : EventLog) (log : RpcLog) : Prop where
  transaction_hash : r.transaction_hash = log.transaction_hash.map FixedBytes.debug
  log_index : r.log_index = log.log_index.map fun n => asI64 n

/-- A row with the log's key and its block's hash was there, and it still is, or the
sender has deleted it. -/
def Represented (lib : Externals) (s : Sys W) (ls : List Label) (t : Sys W) (log : RpcLog) : Prop :=
  ∃ ls₁ m ls₂ r, ls = ls₁ ++ ls₂ ∧ (system lib W).Run s ls₁ m ∧ (system lib W).Run m ls₂ t ∧
    m.row? r.id = some r ∧ r.KeyOf log ∧ r.block_hash = log.block_hash.map FixedBytes.debug ∧
    ((∃ r', t.row? r.id = some r' ∧ r.SameLog r') ∨
      .call .on_chain_sender ⟨.db (.deleteEventLog r.id), .ok ()⟩ ∈ ls₂)

/-- A row with the log's key and another block's hash was there when the log was to be
inserted. -/
def Displaced (lib : Externals) (cfg : Config) (i : IndexerId) (s : Sys W) (ls : List Label)
    (t : Sys W) (log : RpcLog) : Prop :=
  ∃ ls₁ m l m' ls₂, ls = ls₁ ++ l :: ls₂ ∧ (system lib W).Run s ls₁ m ∧
    (system lib W).step m l m' ∧ (system lib W).Run m' ls₂ t ∧ l.Stores cfg i log ∧
    ∃ r ∈ m.shared.db.event_logs, r.KeyOf log ∧
      r.block_hash ≠ log.block_hash.map FixedBytes.debug

/-- The indexer got the logs of block `n` when this was the block there. -/
def FetchedAs (lib : Externals) {chain : Chain} {url : String} (i : IndexerId)
    (s : Sys (World.provider lib chain url)) (ls : List Label)
    (t : Sys (World.provider lib chain url)) (n : Nat) (block : Block) : Prop :=
  ∃ ls₁ m l m' ls₂, ls = ls₁ ++ l :: ls₂ ∧ (system lib (World.provider lib chain url)).Run s ls₁ m ∧
    (system lib (World.provider lib chain url)).step m l m' ∧
    (system lib (World.provider lib chain url)).Run m' ls₂ t ∧ l.Fetches i n ∧
    Fork.block m.shared.world n = block

/-- An INSERT that is executed leaves the log represented, or was displaced. -/
theorem represented_of_stores {s t : Sys W} {ls : List Label} {i : IndexerId} {log : RpcLog}
    {l : Label} (hrun : (system lib W).Run s ls t) (hs : s.Coherent lib) (hk : s.shared.db.Keyed)
    (hl : l ∈ ls) (hstores : l.Stores cfg i log) :
    Represented lib s ls t log ∨ Displaced lib cfg i s ls t log := by
  obtain ⟨ls₁, m, m', ls₂, rfl, h₁, hstep, h₂⟩ := hrun.split hl
  have hm : m.Coherent lib ∧ m.shared.db.Keyed := by
    clear hrun hl hstep h₂
    induction h₁ with
    | nil => exact ⟨hs, hk⟩
    | snoc _ hstep ih => exact ⟨ih.1.step hstep, hstep.keyed ih.2⟩
  have hstores' := hstores
  obtain ⟨log_index, topic_key, log_json, k, hindex, rfl⟩ := hstores'
  have hstep' : m.Step lib (.call (.indexer i) ⟨.db (.insertEventLog
    ((i.indexer cfg).eventLogOf log log_index topic_key log_json)), .ok k⟩) m' := hstep
  cases hstep' with
  | call hr hrest hans =>
      cases hans with
      | @db st x db' hans =>
          rcases hans with ⟨-, skip, hexec⟩ | ⟨-, -, e, hx⟩
          · rcases hm.2.row?_insert hexec with ⟨-, hkey, -⟩ | ⟨-, -, -, hrow⟩
            · -- an older row has the key
              obtain ⟨r, hr, hr'⟩ := List.any_eq_true.mp hkey
              simp only [Bool.and_eq_true, beq_iff_eq] at hr'
              have hkeyof : r.KeyOf log := by
                refine ⟨hr'.1.2, ?_⟩
                rw [hr'.2, hindex]
                rfl
              by_cases hhash : r.block_hash = log.block_hash.map FixedBytes.debug
              · have hrow : m.row? r.id = some r := hm.2.row?_of_mem hr
                exact Or.inl ⟨ls₁, m, _, r, rfl, h₁, .cons hstep h₂, hrow, hkeyof, hhash,
                  Sys.row_stays (.cons hstep h₂) hm.1 hm.2 hrow⟩
              · exact Or.inr ⟨ls₁, m, _, _, ls₂, rfl, h₁, hstep, h₂, hstores, r, hr, hkeyof, hhash⟩
            · -- the log's own row is new
              have hnew := (hrow m.shared.db.next_id).trans (if_pos rfl)
              have hkeyed : db'.Keyed := Sys.Step.keyed hm.2 hstep
              refine Or.inl ⟨_, _, ls₂, NewEventLog.toRow _ _, List.append_cons ls₁ _ ls₂,
                .snoc h₁ hstep, h₂, hnew, ⟨rfl, ?_⟩, rfl,
                Sys.row_stays h₂ (hm.1.step hstep) hkeyed hnew⟩
              rw [hindex]
              rfl
          · cases hx

/-- **What is fetched is represented.** In every run of the process without a failing
INSERT, each block from any value of the cursor up to a later one has been fetched;
each matching log of the block that was there at that moment is represented, or
displaced by an older row with its key. What takes the place of the block after the cursor
has come to it is not asked for by this process. -/
theorem fetched_block_is_represented {db : Db} {url : String} {i : IndexerId} {w : Fork}
    {m t : Sys (World.provider lib i.chain url)} {ls₁ ls₂ : List Label} {n : Nat}
    (hjson : lib.Serializes) (hk : db.Keyed)
    (h₁ : (system lib (World.provider lib i.chain url)).Run (Sys.boot cfg db w) ls₁ m)
    (hm : m.cursor i ≠ 0) (h₂ : (system lib (World.provider lib i.chain url)).Run m ls₂ t)
    (hends : ∀ l ∈ ls₁ ++ ls₂, l.ends = false)
    (hins : ∀ l ∈ ls₁ ++ ls₂, l.failsInsert = false)
    (hlo : m.cursor i ≤ n) (hhi : n ≤ t.cursor i) :
    (∃ block, FetchedAs lib i (Sys.boot cfg db w) (ls₁ ++ ls₂) t n block ∧
      ∀ log ∈ block.logs, (i.indexer cfg).wants lib log = true →
        Represented lib (Sys.boot cfg db w) (ls₁ ++ ls₂) t log ∨
          Displaced lib cfg i (Sys.boot cfg db w) (ls₁ ++ ls₂) t log) ∧
    ∀ ls₃ u, (system lib (World.provider lib i.chain url)).Run t ls₃ u →
      (∀ l ∈ ls₃, l.ends = false) → ∀ l ∈ ls₃, l.asksUpTo i n = false := by
  have hrun := h₁.append h₂
  refine ⟨?_, fun ls₃ u h₃ hends₃ => Sys.asks_onward_run hrun hhi h₃ hends₃⟩
  obtain ⟨l, hl, hfetch⟩ := Sys.fetched_of_cursor h₁ hm h₂ hends hlo hhi
  obtain ⟨ls₃, m', m'', ls₄, heq, h₃, hstep, h₄⟩ := hrun.split hl
  refine ⟨Fork.block m'.shared.world n, ⟨ls₃, m', l, m'', ls₄, heq, h₃, hstep, h₄, hfetch, rfl⟩,
    fun log hlog hwants => ?_⟩
  obtain ⟨chain, filter, logs, rfl, hfrom, hto⟩ := hfetch
  -- the answer was the provider's chain at that moment
  have hgot : log ∈ logs := by
    have hm' : m'.Coherent lib := (Sys.atCursor_of_run h₃).1
    have hcfg : m'.config = cfg := (Sys.stored_run hjson h₃
      (fun l hl => hends l (heq ▸ List.mem_append_left _ hl))
      fun l hl => hins l (heq ▸ List.mem_append_left _ hl)).config
    have hstep' : m'.Step lib
      (.call (.indexer i) ⟨.rpc (.getLogs chain filter), .ok logs⟩) m'' := hstep
    cases hstep' with
    | @call _ r _ k _ sh hr hrest hans =>
        have hjob := (Sys.atCursor_of_run h₃).2 i r hr
        have hallow := hm'.running_allows hr hrest
        simp only [Running.Allows, hjob] at hallow
        obtain ⟨rfl, haddress, hevent⟩ := hallow
        cases hans with
        | rpc hw =>
            have hlogs := hw.2 (i.provider_eq _)
            have hpicks : filter.picks lib log = true := by
              rw [← hwants, EventIndexer.wants, Filter.picks, Filter.picks, haddress, hevent, hcfg]
            rw [hlogs]
            exact Fork.mem_logs hfrom hto hlog hpicks
  have hstorable : log.storable = true := by
    have hmined := Fork.mined m'.shared.world n log hlog
    simp only [EventIndexer.wants, Filter.picks, Bool.and_eq_true, beq_iff_eq] at hwants
    rw [RpcLog.storable, hmined.log_index, hwants.2]
    rfl
  have hstored := Sys.stored_run hjson hrun hends hins
  rcases hstored.fetched i chain filter logs hl log hgot hstorable with
    ⟨l, hl', hstores⟩ | ⟨hlt, -⟩
  · exact represented_of_stores hrun Sys.coherent_boot hk hl' hstores
  · exact absurd hhi (by omega)

/-! ## A reorganisation between two cycles -/

/-- A call that was not answered as it should be. -/
def Label.fails : Label → Bool
  | .call _ ⟨.db _, .error _⟩ => true
  | .call _ ⟨.rpc (.getLogs ..), .error _⟩ => true
  | .call _ ⟨.rpc (.ethGetBlockByNumber ..), .transportError _⟩ => true
  | _ => false

theorem Label.failsInsert_of_fails {l : Label} (h : l.fails = false) : l.failsInsert = false := by
  unfold failsInsert
  split
  · cases h
  · rfl

/-- The chain from here on is another one, and it has come further. -/
def Fork.replacedBy (other w : Fork) : Fork where
  block n := if n ≤ w.finalized then w.block n else other.block n
  safe := max w.safe other.safe
  finalized := max w.finalized other.finalized
  finalized_le := max_le_max w.finalized_le other.finalized_le
  mined n log hlog := by
    split at hlog
    · rw [if_pos ‹_›]
      exact w.mined n log hlog
    · rw [if_neg ‹_›]
      exact other.mined n log hlog

theorem World.provider_tick {chain : Chain} {url : String} (other w : Fork) :
    (World.provider lib chain url).tick w (other.replacedBy w) :=
  ⟨le_max_left _ _, fun _ hn => if_pos hn⟩

namespace Deployment

/-- A log of the AMB bridge on Ethereum. -/
def ambLog (n : Nat) (hash : B256) : RpcLog :=
  { log config.eth_amb_bridge_address n hash with
    topics := [externals.keccak256 "UserRequestForAffirmation(bytes32,bytes)".toUTF8.data.toList] }

/-- The transaction of that log is in block `k`. -/
def forkWith (k : Nat) (hash : B256) (safe finalized : Nat) (h : finalized ≤ safe) : Fork where
  block n := ⟨hash, if n = k then [ambLog n hash] else []⟩
  safe := safe
  finalized := finalized
  finalized_le := h
  mined n log hlog := by
    split at hlog
    · obtain rfl := List.mem_singleton.mp hlog
      exact ⟨rfl, rfl, rfl, rfl⟩
    · cases hlog

/-- The provider answers as long as its safe block is 100 or 101. -/
def provided : Oracle (World.provider externals .eth "http://eth-el") := fun w r =>
  match r with
  | .ethGetBlockByNumber _ .safe =>
      (if Fork.safe w = 100 then elBlock "0x64" (w.block 100).hash
        else if w.safe = 101 then elBlock "0x65" (w.block 101).hash
        else .transportError "timeout", w)
  | .getLogs _ filter => (.ok (w.logs externals filter), w)
  | .ethGetBlockByNumber .. => (.transportError "timeout", w)
  | r => ((lookups (.repeatByte 32 0xaa) () r).1, w)

theorem provided_truthful : provided.Truthful := by
  intro w r
  refine ⟨by cases r with | ethGetBlockByNumber url tag => cases tag <;> rfl | _ => rfl, ?_⟩
  cases r with
  | ethGetBlockByNumber url tag =>
      cases tag with
      | safe =>
          intro _ n hread
          have h100 : ∀ hash, readSafeProbe (elBlock "0x64" hash) = .Block 100 := fun _ => rfl
          have h101 : ∀ hash, readSafeProbe (elBlock "0x65" hash) = .Block 101 := fun _ => rfl
          simp only [provided] at hread
          split at hread
          · rename_i hsafe
            rw [h100] at hread
            rw [hsafe]
            exact (SafeProbe.Block.inj hread).symm
          · split at hread
            · rename_i hsafe
              rw [h101] at hread
              rw [hsafe]
              exact (SafeProbe.Block.inj hread).symm
            · cases hread
      | finalized =>
          intro _ n hread
          cases hread
      | number n =>
          intro _ h hread
          cases hread
  | getLogs chain filter => exact fun _ => rfl
  | _ => trivial

end Deployment

open Deployment in
/-- Block 100 is replaced once it is indexed, and block 101 before it is: what is stored is
the log of the block that has come in its place. -/
theorem fetched_block_is_represented_replaced :
    ∃ (w : Fork) (m t : Sys (World.provider externals .eth "http://eth-el"))
      (ls₁ ls₂ : List Label) (block : Block),
      (Fork.block m.shared.world 100).hash ≠ (Fork.block t.shared.world 100).hash ∧
      m.cursor .ETHAmb = 100 ∧ t.cursor .ETHAmb = 101 ∧
      (∃ r ∈ t.shared.db.event_logs,
        r.block_hash = some (Fork.block t.shared.world 101).hash.debug) ∧
      FetchedAs externals .ETHAmb (Sys.boot config Db.empty w) (ls₁ ++ ls₂) t 101 block ∧
      (∀ log ∈ block.logs, (IndexerId.indexer config .ETHAmb).wants externals log = true →
        Represented externals (Sys.boot config Db.empty w) (ls₁ ++ ls₂) t log ∨
        Displaced externals config .ETHAmb (Sys.boot config Db.empty w) (ls₁ ++ ls₂) t log) ∧
      ∀ ls₃ u, (system externals (World.provider externals .eth "http://eth-el")).Run t ls₃ u →
        (∀ l ∈ ls₃, l.ends = false) → ∀ l ∈ ls₃, l.asksUpTo .ETHAmb 101 = false := by
  have hboot : (Sys.boot config Db.empty (forkWith 101 (.repeatByte 32 0xaa) 100 50 (by decide)) :
      Sys (World.provider externals .eth "http://eth-el")).Resting := Sys.resting_boot
  have hsound₁ : ∀ turn ∈ [Turn.index .ETHAmb provided], turn.Sound := by
    simp [Turn.Sound, provided_truthful]
  have hsound₂ : ∀ turn ∈ [.tick (forkWith 101 (.repeatByte 32 0xbb) 101 50
      (by decide)).replacedBy, Turn.index .ETHAmb provided], turn.Sound := by
    intro turn hturn
    rcases List.mem_cons.mp hturn with rfl | hturn
    · exact World.provider_tick _
    · obtain rfl := List.mem_singleton.mp hturn
      exact provided_truthful
  obtain ⟨ls₁, m, ls₂, t, hrun₁, hrun₂, hp⟩ := Turn.exists_of_playAll₂ _ _
    (fun p q => p.2.cursor .ETHAmb == 100 && q.2.cursor .ETHAmb == 101 &&
      decide ((Fork.block p.2.shared.world 100).hash ≠ (Fork.block q.2.shared.world 100).hash) &&
      q.2.shared.db.event_logs.any (fun r =>
        r.block_hash == some (Fork.block q.2.shared.world 101).hash.debug) &&
      (p.1 ++ q.1).all (fun l => !l.ends && !l.fails)) hsound₁ hsound₂ hboot
    (show (Turn.playAll externals _ _).any _ = true by decide +kernel)
  simp only [Bool.and_eq_true, beq_iff_eq, decide_eq_true_eq, List.any_eq_true, List.all_eq_true,
    Bool.not_eq_eq_eq_not, Bool.not_true] at hp
  obtain ⟨⟨⟨⟨hm, ht⟩, hreplaced⟩, hstored⟩, hlabels⟩ := hp
  obtain ⟨⟨block, hfetched, hlogs⟩, honward⟩ := fetched_block_is_represented (i := .ETHAmb)
    (n := 101) serializes Db.keyed_empty hrun₁ (by omega) hrun₂ (fun l hl => (hlabels l hl).1)
    (fun l hl => Label.failsInsert_of_fails (hlabels l hl).2) (by omega) ht.ge
  exact ⟨_, m, t, ls₁, ls₂, block, hreplaced, hm, ht, hstored, hfetched, hlogs, honward⟩

open Deployment in
/-- Block 100 is indexed while it has no logs; the block that is finalized in its
place has one, which is never asked for. -/
theorem replaced_block_is_missed :
    ¬ ∀ (lib : Externals) (cfg : Config) (url : String) (i : IndexerId) (w : Fork)
      (m t : Sys (World.provider lib i.chain url)) (ls₁ ls₂ : List Label) (n : Nat),
      lib.Serializes → (i.indexer cfg).mode = .fcr → (i.indexer cfg).finalityRpcs.2 = [url] →
      (system lib (World.provider lib i.chain url)).Run (Sys.boot cfg Db.empty w) ls₁ m →
      m.cursor i ≠ 0 → (system lib (World.provider lib i.chain url)).Run m ls₂ t →
      (∀ l ∈ ls₁ ++ ls₂, l.ends = false ∧ l.fails = false) → m.cursor i ≤ n → n ≤ t.cursor i →
      n ≤ Fork.finalized t.shared.world → ∀ log ∈ (Fork.block t.shared.world n).logs,
      (i.indexer cfg).wants lib log = true →
      Represented lib (Sys.boot cfg Db.empty w) (ls₁ ++ ls₂) t log := by
  intro hclaim
  have hboot : (Sys.boot config Db.empty (forkWith 101 (.repeatByte 32 0xaa) 100 50 (by decide)) :
      Sys (World.provider externals .eth "http://eth-el")).Resting := Sys.resting_boot
  have hsound₁ : ∀ turn ∈ [Turn.index .ETHAmb provided], turn.Sound := by
    simp [Turn.Sound, provided_truthful]
  have hsound₂ : ∀ turn ∈ [(Turn.tick (forkWith 100 (.repeatByte 32 0xbb) 101 101
      (by decide)).replacedBy : Turn (World.provider externals .eth "http://eth-el"))],
      turn.Sound := by
    intro turn hturn
    obtain rfl := List.mem_singleton.mp hturn
    exact World.provider_tick _
  obtain ⟨ls₁, m, ls₂, t, hrun₁, hrun₂, hp⟩ := Turn.exists_of_playAll₂ _ _
    (fun p q => p.2.cursor .ETHAmb == 100 && q.2.cursor .ETHAmb == 100 &&
      (p.1 ++ q.1).all (fun l => !l.ends && !l.fails && !l.inserts) &&
      decide (100 ≤ Fork.finalized q.2.shared.world) &&
      (Fork.block q.2.shared.world 100).logs.any
        ((IndexerId.indexer config .ETHAmb).wants externals)) hsound₁ hsound₂ hboot
    (show (Turn.playAll externals _ _).any _ = true by decide +kernel)
  simp only [Bool.and_eq_true, beq_iff_eq, List.all_eq_true, Bool.not_eq_eq_eq_not,
    Bool.not_true, decide_eq_true_eq, List.any_eq_true] at hp
  obtain ⟨⟨⟨⟨hm, ht⟩, hlabels⟩, hfinal⟩, log, hlog, hwants⟩ := hp
  obtain ⟨ls₃, m', ls₄, r, heq, hrun₃, -, hrow, -⟩ := hclaim externals config "http://eth-el"
    .ETHAmb _ m t ls₁ ls₂ 100 serializes rfl rfl hrun₁ (by omega) hrun₂
    (fun l hl => (hlabels l hl).1) hm.le ht.ge hfinal log hlog hwants
  have hempty : m'.row? r.id = none := Sys.empty_of_run hrun₃ Db.keyed_empty rfl
    fun l hl => (hlabels l (heq ▸ List.mem_append_left _ hl)).2
  rw [hempty] at hrow
  cases hrow

/-- A row with this block hash was inserted. -/
def Label.storesHash (hash : Option String) : Label → Bool
  | .call _ ⟨.db (.insertEventLog row), .ok 1⟩ => row.block_hash == hash
  | _ => false

open Deployment in
/-- Nor is it enough that the block is final before it is asked for: its log has been
stored already, with the block its transaction was in before. -/
theorem reincluded_log_is_displaced :
    ¬ ∀ (lib : Externals) (cfg : Config) (url : String) (i : IndexerId) (w : Fork)
      (m t : Sys (World.provider lib i.chain url)) (ls₁ ls₂ : List Label) (n : Nat),
      lib.Serializes → (i.indexer cfg).mode = .fcr → (i.indexer cfg).finalityRpcs.2 = [url] →
      (system lib (World.provider lib i.chain url)).Run (Sys.boot cfg Db.empty w) ls₁ m →
      m.cursor i ≠ 0 → (system lib (World.provider lib i.chain url)).Run m ls₂ t →
      (∀ l ∈ ls₁ ++ ls₂, l.ends = false ∧ l.fails = false) → m.cursor i < n → n ≤ t.cursor i →
      n ≤ Fork.finalized m.shared.world → ∀ log ∈ (Fork.block t.shared.world n).logs,
      (i.indexer cfg).wants lib log = true →
      Represented lib (Sys.boot cfg Db.empty w) (ls₁ ++ ls₂) t log := by
  intro hclaim
  have hboot : (Sys.boot config Db.empty (forkWith 100 (.repeatByte 32 0xaa) 100 50 (by decide)) :
      Sys (World.provider externals .eth "http://eth-el")).Resting := Sys.resting_boot
  have hsound₁ : ∀ turn ∈ [Turn.index .ETHAmb provided, .tick (forkWith 101
      (.repeatByte 32 0xbb) 101 101 (by decide)).replacedBy], turn.Sound := by
    intro turn hturn
    rcases List.mem_cons.mp hturn with rfl | hturn
    · exact provided_truthful
    · obtain rfl := List.mem_singleton.mp hturn
      exact World.provider_tick _
  have hsound₂ : ∀ turn ∈ [Turn.index .ETHAmb provided], turn.Sound := by
    simp [Turn.Sound, provided_truthful]
  obtain ⟨ls₁, m, ls₂, t, hrun₁, hrun₂, hp⟩ := Turn.exists_of_playAll₂ _ _
    (fun p q => p.2.cursor .ETHAmb == 100 && q.2.cursor .ETHAmb == 101 &&
      (p.1 ++ q.1).all (fun l => !l.ends && !l.fails &&
        !l.storesHash (some (FixedBytes.repeatByte 32 0xbb).debug)) &&
      decide (101 ≤ Fork.finalized p.2.shared.world) &&
      (Fork.block q.2.shared.world 101).logs.any fun log =>
        (IndexerId.indexer config .ETHAmb).wants externals log &&
          log.block_hash == some (.repeatByte 32 0xbb)) hsound₁ hsound₂ hboot
    (show (Turn.playAll externals _ _).any _ = true by decide +kernel)
  simp only [Bool.and_eq_true, beq_iff_eq, List.all_eq_true, Bool.not_eq_eq_eq_not,
    Bool.not_true, decide_eq_true_eq, List.any_eq_true] at hp
  obtain ⟨⟨⟨⟨hm, ht⟩, hlabels⟩, hfinal⟩, log, hlog, hwants, hhash⟩ := hp
  obtain ⟨ls₃, m', ls₄, r, heq, hrun₃, -, hrow, -, hrowhash, -⟩ := hclaim externals config
    "http://eth-el" .ETHAmb _ m t ls₁ ls₂ 101 serializes rfl rfl hrun₁ (by omega) hrun₂
    (fun l hl => (hlabels l hl).1) (by omega) ht.ge hfinal log hlog hwants
  obtain ⟨v, row, hmem, hsame⟩ := Sys.inserted_of_run hrun₃ Db.keyed_empty rfl hrow
  have hnot := (hlabels _ (heq ▸ List.mem_append_left _ hmem)).2
  have hstores : row.block_hash = some (FixedBytes.repeatByte 32 0xbb).debug := by
    rw [hhash] at hrowhash
    exact hsame.block_hash.symm.trans hrowhash
  simp only [Label.storesHash, hstores, beq_self_eq_true] at hnot
  cases hnot

end BridgeValidator
