import BridgeValidator.Network
import BridgeValidator.Ownership

/-!
# Verdicts

The finalized number and the hash a verdict rests on are fetched by two walks
over the providers, which different nodes may answer. The checker looks up no
block above the number it has been told, so a verdict is right if the node that
supplies the hash has come as far as that number itself.
-/

namespace BridgeValidator

open Interaction

variable {lib : Externals} {net : Network}

/-- In this step an INSERT of the indexer makes the row of `id`. -/
def IndexerId.Stores {W : World} (i : IndexerId) (id : Int) (_past : List Label) (s : Sys W)
    (l : Label) (t : Sys W) : Prop :=
  ∃ n x, l = .call (.indexer i) ⟨.db (.insertEventLog n), x⟩ ∧ s.shared.db.next_id = id ∧
    t.shared.db.row? id = some (n.toRow id)

/-- Every row has been stored by an indexer. On the chain this indexer gets its logs
from, the row is canonical if it is marked `confirmed`, and not if it is marked
`reverted`. -/
def VerdictsHold (lib : Externals) (net : Network) (s₀ : Sys (World.network net))
    (ls : List Label) (t : Sys (World.network net)) : Prop :=
  ∀ r ∈ t.shared.db.event_logs, ∃ i : IndexerId,
    (system lib (World.network net)).Passed s₀ ls t (i.Stores r.id) ∧
    (r.fcr_status = some .confirmed → r.IsCanonicalOn net i.chain) ∧
    (r.fcr_status = some .reverted → r.IsOrphanOn net i.chain)

/-- No bridge has the address of a bridge of the other chain. -/
def Config.chainsApart (cfg : Config) : Bool :=
  [cfg.eth_amb_bridge_address, cfg.eth_xdai_bridge_address].all fun address =>
    decide (address ≠ cfg.gc_amb_bridge_address ∧ address ≠ cfg.gc_xdai_bridge_address)

def Label.keepsApart : Label → Bool
  | .restart cfg => cfg.chainsApart
  | _ => true

/-- A node that gives a hash by number has finalized all that the round has been told
is final. -/
def Sys.licenses (s : Sys (World.network net)) : Label → Bool
  | .call v ⟨.rpc (.ethGetBlockByNumber url (.number _)), x⟩ => match readHashAnswer x with
      | .hash _ => (s.running v).all fun r => r.told.all fun finalized_block =>
          decide (finalized_block ≤ (s.shared.world.el url).finalized)
      | _ => true
  | _ => true

/-- The system with nodes of the right chain, bridges told apart, and every hash
licensed. -/
def licensed (lib : Externals) (net : Network) : Machine (Sys (World.network net)) Label :=
  (system lib (World.network net)).guarded fun s l _ =>
    l.keepsServed net = true ∧ l.keepsApart = true ∧ s.licenses l = true

/-! ## What the checker asks for -/

namespace FcrChecker

/-- By number only blocks up to the finalized number told last are looked up. -/
def asking : Protocol Calls (Option Int) where
  allows told
    | .rpc (.ethGetBlockByNumber _ (.number n)) =>
        ∃ finalized_block, told = some finalized_block ∧ n ≤ finalized_block
    | _ => True
  admits _
    | .db (.selectPendingBlocks _ finalized_block), .ok rows =>
        ∀ row ∈ rows, row.1 ≤ finalized_block
    | _, _ => True
  next := toldAfter

variable {cfg : Config} {told : Option Int} {chain : Chain} {el_rpcs : List String}
  {block : PendingBlock} {finalized_block : Int}

theorem asking_remembers : Remembers asking where
  beacon _ _ := trivial
  el _ _ := trivial
  next := rfl

theorem asking_verdictFor (hle : block.block_number ≤ finalized_block) :
    Act.Follows asking (some finalized_block) (verdictFor el_rpcs block)
      fun told _ => told = some finalized_block := by
  have hwalk : ∀ any_provider_answered, Act.Follows asking (some finalized_block)
      (hashFromElRpcs block.block_number any_provider_answered el_rpcs)
      fun told _ => told = some finalized_block := by
    induction el_rpcs with
    | nil =>
        intro any_provider_answered
        cases any_provider_answered <;> rfl
    | cons el_rpc rest ih =>
        intro any_provider_answered
        refine Act.follows_bind.mpr (follows_await.mpr ⟨⟨_, rfl, hle⟩, fun x _ => ?_⟩)
        cases hx : readHashAnswer x with
        | failed =>
            simp only [hx]
            exact ih _
        | noHash =>
            simp only [hx]
            exact ih _
        | hash h =>
            simp only [hx]
            rfl
  refine Act.follows_bind.mpr (Act.follows_attempt.mpr ((hwalk false).mono ?_))
  rintro _ ((e | m) | (_ | canonical)) rfl
  · rfl
  · rfl
  · rfl
  · exact Act.follows_ite.mpr ⟨fun _ => rfl, fun _ => rfl⟩

theorem asking_insertFalsePositives {canonical_block_hash : Option String}
    (affected : List (Int × Option String × Option Int)) :
    Act.Follows asking told (insertFalsePositives chain block canonical_block_hash
      finalized_block affected) fun told' _ => told' = told := by
  induction affected with
  | nil => rfl
  | cons row rest ih =>
      simp only [insertFalsePositives, Act.follows_bind, follows_sql]
      exact ⟨trivial, fun _ _ => ih, fun _ _ => rfl⟩

theorem asking_recordFalsePositive {canonical_block_hash : Option String} :
    Act.Follows asking told (recordFalsePositive chain block canonical_block_hash finalized_block)
      fun told' _ => told' = told := by
  simp only [recordFalsePositive, inTransaction, Act.follows_bind, Act.follows_attempt,
    follows_sql]
  refine ⟨trivial, fun _ _ => ⟨trivial, fun affected _ => ?_, fun _ _ => ⟨trivial, ?_⟩⟩,
    fun _ _ => rfl⟩
  · apply (asking_insertFalsePositives affected).mono
    rintro _ ((e | m) | a) rfl
    · exact ⟨trivial, fun _ _ => rfl⟩
    · rfl
    · exact ⟨trivial, fun _ _ => ⟨trivial, fun _ _ => rfl, fun _ _ => ⟨trivial, fun _ _ => rfl⟩⟩,
        fun _ _ => ⟨trivial, fun _ _ => rfl⟩⟩
  · intro _ _
    rfl

theorem asking_adjudicateAll (pending : List PendingBlock)
    (hle : ∀ block ∈ pending, block.block_number ≤ finalized_block) :
    Act.Follows asking (some finalized_block)
      (adjudicateAll chain el_rpcs finalized_block pending) fun _ _ => True := by
  induction pending with
  | nil => trivial
  | cons block rest ih =>
      have hrest := ih fun block' h => hle block' (List.mem_cons_of_mem _ h)
      simp only [adjudicateAll, adjudicate, Act.follows_bind]
      apply (asking_verdictFor (hle block List.mem_cons_self)).mono
      rintro _ (_ | _ | canonical_block_hash | _) rfl
      · trivial
      · simp only [markConfirmed, Act.follows_bind, follows_sql]
        exact ⟨trivial, fun _ _ => hrest, fun _ _ => trivial⟩
      · apply asking_recordFalsePositive.mono
        rintro _ (_ | _) rfl
        · trivial
        · exact hrest
      · exact hrest

theorem asking_checkChain :
    Act.Follows asking told (checkChain cfg chain el_rpcs) fun _ _ => True := by
  refine Act.follows_bind.mpr (asking_remembers.follows_getFinalizedBlockNumber.mono ?_)
  rintro told (_ | finalized_block) htold
  · trivial
  · obtain rfl : told = some finalized_block := htold
    simp only [reportBacklog, pendingBlocks, Act.follows_bind, follows_sql]
    refine ⟨trivial, fun _ _ => ⟨trivial, fun rows hrows => ⟨trivial, fun _ _ => ?_,
      fun _ _ => trivial⟩, fun _ _ => trivial⟩, fun _ _ => trivial⟩
    apply asking_adjudicateAll
    intro block hblock
    obtain ⟨row, hrow, rfl⟩ := List.mem_map.mp hblock
    exact hrows row hrow

theorem asking_cycle : Act.Follows asking told (cycle cfg) fun _ _ => True := by
  unfold cycle
  generalize cfg.fcrChains = chains
  induction chains generalizing told with
  | nil => trivial
  | cons c rest ih =>
      refine Act.follows_bind.mpr (Act.follows_attempt.mpr (asking_checkChain.mono ?_))
      rintro _ ((e | m) | a) -
      · exact ih
      · trivial
      · exact ih

end FcrChecker

theorem Job.asking_check {cfg : Config} :
    Act.Follows FcrChecker.asking none (Job.prog lib cfg .check) fun _ _ => True := by
  refine Act.follows_bind.mpr (FcrChecker.asking_cycle.mono ?_)
  rintro _ (_ | _) - <;> trivial

/-- The checker's SELECT returns blocks up to the number it is given. -/
theorem FcrChecker.asking_admits {W : World} {sh sh' : Shared W} {o : Op} {x : o.Ans}
    {told : Option Int} (hans : sh.Answers o x sh') : FcrChecker.asking.admits told o x := by
  cases hans with
  | @db st x db' h =>
      cases st with
      | selectPendingBlocks modes finalized_block =>
          cases x with
          | error e => trivial
          | ok rows =>
              rcases h with ⟨-, skip, hexec⟩ | ⟨-, -, e, he⟩
              · obtain ⟨hrows, -⟩ := Prod.mk.inj hexec
                obtain rfl := Except.ok.inj hrows
                rintro ⟨n, stored⟩ hrow
                obtain ⟨r, -, -, hupTo, hn, -⟩ := Db.mem_selectPendingBlocks.mp hrow
                rw [EventLog.isUpTo, hn] at hupTo
                exact of_decide_eq_true hupTo
              · cases he
      | _ => trivial
  | @rpc rq => cases rq <;> trivial
  | _ => trivial

/-! ## What a verdict rests on -/

/-- What the nodes say is what is canonical. -/
def Network.truth (net : Network) : FcrChecker.Hearsay :=
  fun url n h => h = (net.canonical (net.chainOf url) n).debug

/-- The chain a row is checked on. -/
def BridgeMode.chain : BridgeMode → Chain
  | .AMB_ETH => .eth
  | .XDAI_ETH => .eth
  | _ => .gc

/-- Where the bridges of the two chains are told apart, the rows of an indexer are
checked on the chain that it gets its logs from. -/
theorem IndexerId.chain_of_chainsApart {cfg : Config} (hapart : cfg.chainsApart = true)
    (i : IndexerId) :
    (EventIndexer.checkBridgeMode (i.indexer cfg).contract_address (i.indexer cfg).config).chain =
      i.chain := by
  simp only [Config.chainsApart, List.all_cons, List.all_nil, Bool.and_true, Bool.and_eq_true,
    decide_eq_true_eq] at hapart
  obtain ⟨⟨hamb, hambXdai⟩, hxdaiAmb, hxdai⟩ := hapart
  cases i with
  | ETHAmb => simp [indexer, EventIndexer.checkBridgeMode, BridgeMode.chain, chain]
  | GCAmb => simp [indexer, EventIndexer.checkBridgeMode, BridgeMode.chain, chain, Ne.symm hamb]
  | ETHXdai =>
      simp only [indexer, EventIndexer.checkBridgeMode, hxdaiAmb, if_false, if_true]
      split <;> rfl
  | GCXdai =>
      simp only [indexer, EventIndexer.checkBridgeMode, Ne.symm hambXdai, Ne.symm hxdai, if_false,
        if_true]
      split <;> rfl

theorem Config.chainOf_of_servedBy {cfg : Config} (hserved : cfg.servedBy net = true)
    {chain : Chain} {el_rpcs : List String} (hchain : (chain, el_rpcs) ∈ cfg.fcrChains)
    {url : String} (hurl : url ∈ el_rpcs) :
    net.chainOf url = chain ∧ ∀ mode ∈ FcrChecker.bridgeModes chain, mode.chain = chain := by
  simp only [servedBy, Bool.and_eq_true, List.all_eq_true, beq_iff_eq] at hserved
  simp only [fcrChains, List.mem_append] at hchain
  rcases hchain with hchain | hchain
  · split at hchain
    · obtain ⟨rfl, rfl⟩ := Prod.mk.inj (List.mem_singleton.mp hchain)
      exact ⟨hserved.1 url hurl, by decide⟩
    · cases hchain
  · split at hchain
    · obtain ⟨rfl, rfl⟩ := Prod.mk.inj (List.mem_singleton.mp hchain)
      exact ⟨hserved.2 url hurl, by decide⟩
    · cases hchain

/-- With grounds that are true, the comparison decides whether a row is canonical. -/
theorem EventLog.of_grounds {cfg : Config} (hserved : cfg.servedBy net = true)
    {modes : List BridgeMode} {n : Int} {h : String} {same : Bool} {r : EventLog}
    (hgrounds : FcrChecker.Grounds cfg net.truth modes n h same)
    (hpending : r.isPendingAt modes n h = true) (hlower : toAsciiLowercase h = h) :
    (same = true → r.IsCanonicalOn net r.bridge_mode.chain) ∧
      (same = false → r.IsOrphanOn net r.bridge_mode.chain) := by
  obtain ⟨chain, el_rpcs, url, canonical, hchain, rfl, hurl, rfl, hsame⟩ := hgrounds
  simp only [isPendingAt, isPendingOf, Bool.and_eq_true, decide_eq_true_eq, beq_iff_eq] at hpending
  obtain ⟨⟨⟨hmode, -⟩, hnumber⟩, hhash⟩ := hpending
  obtain ⟨hof, hmodes⟩ := cfg.chainOf_of_servedBy hserved hchain hurl
  rw [hof, eqIgnoreAsciiCase, toAsciiLowercase_debug, hlower, ← hmodes _ hmode] at hsame
  constructor
  · rintro rfl
    refine ⟨n, hnumber, ?_⟩
    rw [hhash, ← beq_iff_eq.mp hsame]
  · rintro rfl
    refine ⟨n, h, hnumber, hhash, ?_⟩
    intro heq
    rw [heq, beq_self_eq_true] at hsame
    cases hsame

/-- An answer that is licensed is the truth: the number told lies between the block asked
for and the head of the node that answers. -/
theorem Sys.admits_of_licenses {s : Sys (World.network net)} {v : Service} {r : Running} {o : Op}
    {x : o.Ans} {sh : Shared (World.network net)} (hr : s.running v = some r)
    (hasks : FcrChecker.asking.allows r.told o) (hans : s.shared.Answers o x sh)
    (hlicensed : s.licenses (.call v ⟨o, x⟩) = true) :
    (FcrChecker.protocol s.config net.truth).admits () o x := by
  cases hans with
  | @rpc rq x w hw =>
      cases rq with
      | ethGetBlockByNumber url tag =>
          cases tag with
          | number n =>
              intro h hread
              obtain ⟨hash, hgives, rfl⟩ := readHashAnswer_eq_hash.mp hread
              obtain ⟨b, hb, hlower⟩ := hw.2 hash hgives
              obtain ⟨finalized_block, htold, hle⟩ := hasks
              simp only [licenses, hread, hr, htold, Option.all_some, decide_eq_true_eq]
                at hlicensed
              have hfinal : n ≤ (s.shared.world.el url).finalized := hle.trans hlicensed
              rw [Network.truth, hlower, (s.shared.world.el url).agrees n b hfinal hb]
          | _ => trivial
      | _ => trivial
  | _ => trivial

/-! ## What the open transaction will revert -/

/-- An id gets on the list of rows to revert by the UPDATE that matches its row. -/
theorem Db.Answers.reverted {db db' : Db} {st : Stmt} {x : Except String st.Ret}
    (h : db.Answers st x db') {tx' : Tx} (htx : db'.tx = some tx') {id : Int}
    (hid : id ∈ tx'.reverted) :
    (∃ tx, db.tx = some tx ∧ id ∈ tx.reverted) ∨
    ∃ modes n b, st = .markReverted modes n b ∧
      ∃ r ∈ db.event_logs, r.id = id ∧ r.isPendingAt modes n b = true := by
  have hsame : db'.tx = db.tx → (∃ tx, db.tx = some tx ∧ id ∈ tx.reverted) :=
    fun heq => ⟨tx', heq ▸ htx, hid⟩
  rcases h with ⟨-, skip, hexec⟩ | ⟨-, rfl, -⟩
  · obtain ⟨rfl, rfl⟩ := Prod.mk.inj hexec.symm
    cases st with
    | begin =>
        obtain rfl := Option.some.inj htx
        cases hid
    | rollback => cases htx
    | claim max =>
        refine Or.inl (hsame ?_)
        simp only [Db.claim]
        split <;> rfl
    | insertEventLog n =>
        refine Or.inl (hsame ?_)
        simp only [Db.insertEventLog]
        split
        · split <;> rfl
        · rfl
    | incrementRetryCount id' =>
        refine Or.inl (hsame ?_)
        simp only [Db.incrementRetryCount]
        split <;> rfl
    | selectAffected modes n b =>
        left
        simp only [Db.selectAffected] at htx
        split at htx
        · exact ⟨tx', htx, hid⟩
        · rename_i tx htx'
          obtain rfl := Option.some.inj htx
          exact ⟨tx, htx', hid⟩
    | insertFalsePositive row =>
        left
        simp only [Db.insertFalsePositive] at htx
        split at htx
        · exact ⟨tx', htx, hid⟩
        · rename_i tx htx'
          obtain rfl := Option.some.inj htx
          exact ⟨tx, htx', hid⟩
    | markReverted modes n b =>
        simp only [Db.markReverted] at htx
        split at htx
        · exact Or.inl ⟨tx', htx, hid⟩
        · rename_i tx htx'
          obtain rfl := Option.some.inj htx
          rcases List.mem_append.mp hid with hid | hid
          · exact Or.inl ⟨tx, htx', hid⟩
          · right
            obtain ⟨r, hr, rfl⟩ := List.mem_map.mp hid
            obtain ⟨hmem, hpending⟩ := List.mem_filter.mp hr
            exact ⟨modes, n, b, rfl, r, hmem, rfl, hpending⟩
    | commit =>
        simp only [Db.commit] at htx
        split at htx
        · exact Or.inl ⟨tx', htx, hid⟩
        · cases htx
    | _ => exact Or.inl (hsame rfl)
  · exact Or.inl (hsame rfl)

/-! ## Over runs -/

/-- A row as far as the checker is concerned: its hash is in lower case, and the
verdict on it, if any, is right. -/
structure EventLog.Sound (net : Network) (r : EventLog) : Prop where
  lower : ∀ h, r.block_hash = some h → toAsciiLowercase h = h
  confirmed : r.fcr_status = some .confirmed → r.IsCanonicalOn net r.bridge_mode.chain
  reverted : r.fcr_status = some .reverted → r.IsOrphanOn net r.bridge_mode.chain

namespace Sys

variable {s t : Sys (World.network net)} {l : Label}

/-- What holds while all hashes are licensed: the rows are sound, those about to
be reverted are orphans, and the checker has been told the truth. -/
structure Adjudicated (lib : Externals) (s : Sys (World.network net)) : Prop where
  coherent : s.Coherent lib
  keyed : s.shared.db.Keyed
  served : s.config.servedBy net = true
  rows : ∀ id r, s.shared.db.row? id = some r → r.Sound net
  listed : ∀ tx, s.shared.db.tx = some tx → ∀ id ∈ tx.reverted, id < s.shared.db.next_id ∧
    ∀ r, s.shared.db.row? id = some r → r.IsOrphanOn net r.bridge_mode.chain
  asked : s.Heard (fun _ => FcrChecker.asking) none .fcr_checker
  told : s.Heard (fun cfg => FcrChecker.protocol cfg net.truth) () .fcr_checker

variable {v : Service} {r : Running} {st : Stmt}
  {k : Except String st.Ret → Prog Calls (Except (Exit BridgeValidatorError) (Option Nat))}

/-- A statement that passes a verdict is the checker's, and has true grounds. -/
theorem Adjudicated.grounds (h : s.Adjudicated lib) (hr : s.running v = some r)
    (hrest : r.rest = @Prog.call Calls _ (.db st) k) :
    (∀ modes n b, st = .markConfirmed modes n b →
      FcrChecker.Grounds s.config net.truth modes n b true) ∧
    ∀ modes n b, st = .markReverted modes n b →
      FcrChecker.Grounds s.config net.truth modes n b false := by
  have hallow := h.coherent.running_allows hr hrest
  unfold Running.Allows at hallow
  cases hjob : r.job with
  | check =>
      have hv : .fcr_checker = v := by simpa [hjob, Job.service] using (h.coherent v r hr).1
      subst hv
      have htrue := h.coherent.allows hr hrest hjob Job.follows_check (h.told r hr)
      constructor <;> rintro modes n b rfl <;> exact htrue
  | _ =>
      rw [hjob] at hallow
      constructor <;> rintro modes n b rfl <;> exact hallow.elim

/-- Only indexers insert, and what they insert is sound. -/
theorem Adjudicated.inserted (h : s.Adjudicated lib) {n : NewEventLog} (hr : s.running v = some r)
    {k : Except String Nat → Prog Calls (Except (Exit BridgeValidatorError) (Option Nat))}
    (hrest : r.rest = @Prog.call Calls _ (.db (.insertEventLog n)) k) (id : Int) :
    (n.toRow id).Sound net := by
  have hallow := h.coherent.running_allows hr hrest
  unfold Running.Allows at hallow
  cases hjob : r.job with
  | index i last_processed_block =>
      rw [hjob] at hallow
      obtain ⟨log, log_index, topic_key, log_json, -, rfl⟩ := hallow
      refine ⟨?_, ?_, ?_⟩
      · intro hash hhash
        obtain ⟨b, -, rfl⟩ := Option.map_eq_some_iff.mp hhash
        exact toAsciiLowercase_debug b
      · intro hstatus
        simp only [NewEventLog.toRow, EventIndexer.eventLogOf] at hstatus
        split at hstatus <;> cases hstatus
      · intro hstatus
        simp only [NewEventLog.toRow, EventIndexer.eventLogOf] at hstatus
        split at hstatus <;> cases hstatus
  | _ =>
      rw [hjob] at hallow
      exact hallow.elim

/-- A statement keeps the rows sound. -/
theorem Adjudicated.row_sound (h : s.Adjudicated lib) (hr : s.running v = some r)
    (hrest : r.rest = @Prog.call Calls _ (.db st) k) {x : Except String st.Ret} {db' : Db}
    (hans : s.shared.db.Answers st x db') (id : Int) {r' : EventLog}
    (hr' : db'.row? id = some r') : r'.Sound net := by
  have hmove := (hans.rowEffect h.keyed id).move
  rw [hr'] at hmove
  generalize hafter : some r' = after at hmove
  cases hmove with
  | same => exact h.rows id r' hafter.symm
  | claimed hrow | staged hrow | released hrow =>
      obtain rfl := Option.some.inj hafter
      have hsound := h.rows id _ hrow
      exact ⟨hsound.lower, hsound.confirmed, hsound.reverted⟩
  | inserted hid =>
      obtain rfl := Option.some.inj hafter
      exact h.inserted hr hrest id
  | deleted => cases hafter
  | @confirmed modes n b j row hrow hpending =>
      obtain rfl := Option.some.inj hafter
      have hsound := h.rows id row hrow
      have hgrounds := (h.grounds hr hrest).1 modes n b rfl
      have hhash : row.block_hash = some b := by
        simp only [EventLog.isPendingAt, Bool.and_eq_true, beq_iff_eq] at hpending
        exact hpending.2
      -- the row has the number and the hash that the verdict is about
      have hcanonical := (EventLog.of_grounds h.served hgrounds hpending
        (hsound.lower b hhash)).1 rfl
      refine ⟨hsound.lower, fun _ => hcanonical, fun hreverted => ?_⟩
      cases hreverted
  | @reverted row hrow hlisted =>
      obtain rfl := Option.some.inj hafter
      have hsound := h.rows id row hrow
      -- a commit reverts what is on the list
      cases htx : s.shared.db.tx with
      | none =>
          rw [htx] at hlisted
          cases hlisted
      | some tx =>
          rw [htx, Db.row?_id hrow] at hlisted
          have horphan := (h.listed tx htx id hlisted).2 row hrow
          refine ⟨hsound.lower, fun hconfirmed => ?_, fun _ => horphan⟩
          cases hconfirmed

/-- What a statement adds to the list of rows to revert are orphans. -/
theorem Adjudicated.listed_call (h : s.Adjudicated lib) (hr : s.running v = some r)
    (hrest : r.rest = @Prog.call Calls _ (.db st) k) {x : Except String st.Ret} {db' : Db}
    (hans : s.shared.db.Answers st x db') {tx' : Tx} (htx : db'.tx = some tx') {id : Int}
    (hid : id ∈ tx'.reverted) :
    id < db'.next_id ∧
      ∀ r', db'.row? id = some r' → r'.IsOrphanOn net r'.bridge_mode.chain := by
  have hbefore : id < s.shared.db.next_id ∧
      ∀ row, s.shared.db.row? id = some row → row.IsOrphanOn net row.bridge_mode.chain := by
    -- on the list already, or put there by this UPDATE
    rcases hans.reverted htx hid with ⟨tx, htx', hmem⟩ |
      ⟨modes, n, b, rfl, row, hmem, rfl, hpending⟩
    · exact h.listed tx htx' id hmem
    · have hrow := h.keyed.row?_of_mem hmem
      have hhash : row.block_hash = some b := by
        simp only [EventLog.isPendingAt, Bool.and_eq_true, beq_iff_eq] at hpending
        exact hpending.2
      have hgrounds := (h.grounds hr hrest).2 modes n b rfl
      refine ⟨h.keyed.lt_next row hmem, fun row' hrow' => ?_⟩
      obtain rfl := Option.some.inj (hrow.symm.trans hrow')
      exact (EventLog.of_grounds h.served hgrounds hpending
        ((h.rows _ row hrow).lower b hhash)).2 rfl
  refine ⟨lt_of_lt_of_le hbefore.1 (hans.keyed h.keyed).2, fun r' hr' => ?_⟩
  obtain ⟨row, hrow, hsame⟩ := (hans.rowEffect h.keyed id).sameLog hbefore.1 hr'
  obtain ⟨n, b, hnumber, hhash, hne⟩ := hbefore.2 row hrow
  refine ⟨n, b, hsame.block_number.trans hnumber, hsame.block_hash.trans hhash, ?_⟩
  rw [hsame.bridge_mode]
  exact hne

/-- What the checker asks for next is at or below the number it has been told. -/
theorem Adjudicated.asks (h : s.Adjudicated lib) {o : Op} {x : o.Ans}
    (hstep : s.Step lib (.call .fcr_checker ⟨o, x⟩) t) {r : Running}
    (hr : s.running .fcr_checker = some r) : FcrChecker.asking.allows r.told o := by
  cases hstep with
  | @call _ r' _ k _ sh hr' hrest hans =>
      obtain rfl := Option.some.inj (hr.symm.trans hr')
      have hservice := (h.coherent _ r hr).1
      cases hjob : r.job with
      | check =>
          rw [← FcrChecker.asking_remembers.after_trace]
          exact h.coherent.allows hr hrest hjob Job.asking_check (h.asked r hr)
      | _ =>
          rw [hjob] at hservice
          cases hservice

theorem Adjudicated.step (h : s.Adjudicated lib) (hstep : s.Step lib l t)
    (hkeeps : l.keepsServed net = true) (hlicensed : s.licenses l = true) :
    t.Adjudicated lib := by
  have hcoherent := h.coherent.step hstep
  have hkeyed := hstep.keyed h.keyed
  have hasked : t.Heard (fun _ => FcrChecker.asking) none .fcr_checker := by
    apply h.asked.step hstep
    rintro r o x sh - rfl hans
    exact FcrChecker.asking_admits hans
  have htold : t.Heard (fun cfg => FcrChecker.protocol cfg net.truth) () .fcr_checker := by
    apply h.told.step hstep
    rintro r o x sh hr rfl hans
    exact admits_of_licenses hr (h.asks hstep hr) hans hlicensed
  cases hstep with
  | call hr hrest hans =>
      cases hans with
      | db hans =>
          exact ⟨hcoherent, hkeyed, h.served, fun id r' hr' => h.row_sound hr hrest hans id hr',
            fun tx htx id hid => h.listed_call hr hrest hans htx hid, hasked, htold⟩
      | _ => exact ⟨hcoherent, hkeyed, h.served, h.rows, h.listed, hasked, htold⟩
  | panic hr hrest => exact ⟨hcoherent, hkeyed, h.served, h.rows, nofun, hasked, htold⟩
  | restart => exact ⟨hcoherent, hkeyed, hkeeps, h.rows, nofun, hasked, htold⟩
  | _ => exact ⟨hcoherent, hkeyed, h.served, h.rows, h.listed, hasked, htold⟩

/-! ## Where rows come from -/

/-- Every row has been stored by an indexer of the chain it is checked on. -/
def Fetched (lib : Externals) (s₀ : Sys (World.network net)) (ls : List Label)
    (s : Sys (World.network net)) : Prop :=
  ∀ id r, s.shared.db.row? id = some r → ∃ i : IndexerId, r.bridge_mode.chain = i.chain ∧
    (system lib (World.network net)).Passed s₀ ls s (i.Stores id)

theorem Fetched.step {s₀ : Sys (World.network net)} {ls : List Label} (h : Fetched lib s₀ ls s)
    (hrun : (system lib (World.network net)).Run s₀ ls s) (hcoherent : s.Coherent lib)
    (hkeyed : s.shared.db.Keyed) (hapart : s.config.chainsApart = true)
    (hstep : s.Step lib l t) : Fetched lib s₀ (ls ++ [l]) t := by
  intro id r' hr'
  have hkept : ∀ r, s.shared.db.row? id = some r → r'.bridge_mode = r.bridge_mode →
      ∃ i : IndexerId, r'.bridge_mode.chain = i.chain ∧
        (system lib (World.network net)).Passed s₀ (ls ++ [l]) t (i.Stores id) := by
    intro r hr hmode
    obtain ⟨i, hchain, hpassed⟩ := h id r hr
    exact ⟨i, (congrArg BridgeMode.chain hmode).trans hchain, hpassed.snoc hstep⟩
  have hstep' := hstep
  cases hstep with
  | call hr hrest hans =>
      cases hans with
      | db hans =>
          rcases (hans.rowEffect hkeyed id).origin hr' with ⟨r, hrow, hsame⟩ | ⟨n, hid, rfl, rfl⟩
          · exact hkept r hrow hsame.bridge_mode
          · obtain ⟨i, log, log_index, topic_key, log_json, rfl, hn⟩ :=
              hcoherent.insert_allows hr hrest
            refine ⟨i, ?_, .now hrun hstep' ⟨n, _, rfl, hid.symm, hr'⟩⟩
            subst hn
            exact i.chain_of_chainsApart hapart
      | _ => exact hkept r' hr' rfl
  | _ => exact hkept r' hr' rfl

end Sys

/-! ## Verdicts are sound -/

/-- **Verdicts hold as long as hashes are licensed.** In every run in which a node that
gives a hash by number has come as far as the number the checker has been told, a row
marked `confirmed` is canonical on the chain it was fetched from, and a row marked
`reverted` is not. -/
theorem verdicts_hold_of_licensed {cfg : Config} {w : Views net} {ls : List Label}
    {t : Sys (World.network net)} (hserved : cfg.servedBy net = true)
    (hapart : cfg.chainsApart = true)
    (hrun : (licensed lib net).Run (Sys.boot cfg Db.empty w) ls t) :
    VerdictsHold lib net (Sys.boot cfg Db.empty w) ls t := by
  have hall : t.Adjudicated lib ∧ t.config.chainsApart = true ∧
      Sys.Fetched lib (Sys.boot cfg Db.empty w) ls t := by
    induction hrun with
    | nil =>
        refine ⟨⟨Sys.coherent_boot, Db.keyed_empty, hserved, ?_, ?_, ?_, ?_⟩, hapart, ?_⟩
        · intro id r hr
          cases hr
        · intro tx htx
          cases htx
        · intro r hr
          cases hr
        · intro r hr
          cases hr
        · intro id r hr
          cases hr
    | @snoc ls s l t hrun hstep ih =>
        obtain ⟨hstep, hserved, hapart, hlicensed⟩ := hstep
        obtain ⟨hs, hs', hfetched⟩ := ih
        refine ⟨hs.step hstep hserved hlicensed, ?_, ?_⟩
        · -- the settings change at a restart only
          cases hl : l.isRestart with
          | false =>
              rw [hstep.config_eq hl]
              exact hs'
          | true =>
              cases l <;> cases hl
              cases hstep
              exact hapart
        · exact hfetched.step hrun.of_guarded hs.coherent hs.keyed hs' hstep
  obtain ⟨ht, -, hfetched⟩ := hall
  intro r hr
  have hrow := ht.keyed.row?_of_mem hr
  obtain ⟨i, hchain, hpassed⟩ := hfetched r.id r hrow
  have hsound := ht.rows r.id r hrow
  refine ⟨i, hpassed, ?_, ?_⟩
  · rw [← hchain]
    exact hsound.confirmed
  · rw [← hchain]
    exact hsound.reverted

open Deployment in
/-- The node that has told what is final supplies the hash as well, and the verdict on
the forked block is right. -/
theorem verdicts_hold_of_licensed_reverted :
    ∃ (s₀ t : Sys (World.network (network (.repeatByte 32 0xbb)))) (ls : List Label),
      VerdictsHold externals _ s₀ ls t ∧
      ∃ r ∈ t.shared.db.event_logs, r.fcr_status = some .reverted := by
  have hboot : (Sys.boot twoNodes Db.empty (lagging (.repeatByte 32 0xbb) second) :
      Sys (World.network (network (.repeatByte 32 0xbb)))).Resting := Sys.resting_boot
  have hsound : ∀ turn ∈ [Turn.index .ETHAmb (asked (.repeatByte 32 0xbb) "http://eth-el-1"),
      .check (asked (.repeatByte 32 0xbb) "http://eth-el-1")], turn.Sound := by
    simp [Turn.Sound, asked_truthful]
  obtain ⟨ls, t, hrun, -, hp⟩ := Turn.exists_of_playGuarded _
    (fun q => q.2.shared.db.event_logs.any fun r => r.fcr_status == some .reverted) hsound hboot
    (show (Turn.playGuarded externals (fun s l _ =>
      l.keepsServed (network (.repeatByte 32 0xbb)) = true ∧ l.keepsApart = true ∧
        s.licenses l = true) _ _).any _ = true by decide +kernel)
  obtain ⟨r, hr, hstatus⟩ := List.any_eq_true.mp hp
  exact ⟨_, t, ls, verdicts_hold_of_licensed (by decide) (by decide) hrun, r, hr,
    beq_iff_eq.mp hstatus⟩

open Deployment in
/-- The first node tells that block 200 is final and then fails; the second one,
which has finalized only block 50, still has the forked block 100, and the row
recorded from it is confirmed. -/
theorem orphan_is_confirmed :
    ¬ ∀ (lib : Externals) (net : Network) (cfg : Config) (w : Views net) (ls : List Label)
      (t : Sys (World.network net)), cfg.servedBy net = true → cfg.chainsApart = true →
      (served lib net).Run (Sys.boot cfg Db.empty w) ls t →
      VerdictsHold lib net (Sys.boot cfg Db.empty w) ls t := by
  intro hclaim
  have hboot : (Sys.boot twoNodes Db.empty (lagging (.repeatByte 32 0xbb) second) :
      Sys (World.network (network (.repeatByte 32 0xbb)))).Resting := Sys.resting_boot
  have hsound : ∀ turn ∈ [Turn.index .ETHAmb (asked (.repeatByte 32 0xbb) "http://eth-el-2"),
      .check (asked (.repeatByte 32 0xbb) "http://eth-el-2")], turn.Sound := by
    simp [Turn.Sound, asked_truthful]
  obtain ⟨ls, t, hrun, -, hp⟩ := Turn.exists_of_playGuarded _
    (fun q => q.2.shared.db.event_logs.any fun r => r.fcr_status == some .confirmed &&
      r.block_hash == some (FixedBytes.repeatByte 32 0xaa).debug) hsound hboot
    (show (Turn.playGuarded externals (fun _ l _ =>
      l.keepsServed (network (.repeatByte 32 0xbb)) = true) _ _).any _ = true by decide +kernel)
  obtain ⟨r, hr, hstatus⟩ := List.any_eq_true.mp hp
  simp only [Bool.and_eq_true, beq_iff_eq] at hstatus
  obtain ⟨i, -, hconfirmed, -⟩ := hclaim _ _ _ _ ls t (by decide) (by decide) hrun r hr
  obtain ⟨n, -, hhash⟩ := hconfirmed hstatus.1
  have hfork : (FixedBytes.repeatByte 32 0xaa).debug ≠ (FixedBytes.repeatByte 32 0xbb).debug := by
    decide
  exact hfork (Option.some.inj (hstatus.2.symm.trans hhash))

end BridgeValidator
