import BridgeValidator.Roles
import BridgeValidator.Rounds
import BridgeValidator.SafeProbe

/-!
# Nodes with views of their own

Several nodes follow one chain, and each has come as far as it has. A node's
view agrees with the canonical chain up to its own finalized head and may be on
a fork from there on; the nodes answer truthfully from their views, or fail to
answer.
-/

namespace BridgeValidator

open Interaction

/-! ## Nodes and their views -/

/-- The chains as they will be finalized, and which of them each node follows. -/
structure Network where
  canonical : Chain → Int → B256
  chainOf : String → Chain

/-- An execution node: its finalized head, and the hashes it gives by number.
Up to its head they are the canonical ones. -/
structure ElView (canonical : Int → B256) where
  finalized : Int
  hashAt : Int → Option B256
  agrees : ∀ n h, n ≤ finalized → hashAt n = some h → h = canonical n

/-- What every node knows, and which node of each chain is the first to answer a
request that goes to all of them. -/
structure Views (net : Network) where
  beacon : String → Int
  el : (url : String) → ElView (net.canonical (net.chainOf url))
  first : Chain → String

/-- The log is in a block of the range that the node has. -/
def ElView.Shows {canonical : Int → B256} (view : ElView canonical) (filter : Filter)
    (log : RpcLog) : Prop :=
  ∃ n h, log.block_number = some n ∧ log.block_hash = some h ∧ filter.from_block ≤ n ∧
    n ≤ filter.to_block ∧ view.hashAt (asI64 n) = some h

/-- Nodes answer from their views, or fail to, and their heads advance. -/
def World.network (net : Network) : World where
  State := Views net
  init _ := True
  rpc w r x w' := w' = w ∧ match r, x with
    | .beaconFinalized url, x => ∀ n, readBeaconResponse x = .ok n → n = w.beacon url
    | .ethGetBlockByNumber url .finalized, x =>
        ∀ n, readElFinalized x = .ok n → n = (w.el url).finalized
    | .ethGetBlockByNumber url (.number n), x =>
        ∀ hash, x.GivesHash hash →
          ∃ b, (w.el url).hashAt n = some b ∧ toAsciiLowercase hash = b.debug
    | .getLogs chain filter, .ok logs => net.chainOf (w.first chain) = chain ∧
        ∀ log ∈ logs, (w.el (w.first chain)).Shows filter log
    | _, _ => True
  tick w w' := (∀ url, w.beacon url ≤ w'.beacon url) ∧
    ∀ url, (w.el url).finalized ≤ (w'.el url).finalized

/-- The execution RPCs of each chain are nodes of that chain. -/
def Config.servedBy (net : Network) (cfg : Config) : Bool :=
  cfg.eth_rpc.all (fun url => net.chainOf url == .eth) &&
    cfg.gc_rpc.all (fun url => net.chainOf url == .gc)

/-- Restarts keep every chain with its own nodes. -/
def Label.keepsServed (net : Network) : Label → Bool
  | .restart cfg => cfg.servedBy net
  | _ => true

/-- The system, always configured with the right nodes. -/
def served (lib : Externals) (net : Network) : Machine (Sys (World.network net)) Label :=
  (system lib (World.network net)).guarded fun _ l _ => l.keepsServed net = true

/-- The stored hash is the one that is finally canonical at its number. -/
def EventLog.IsCanonicalOn (net : Network) (chain : Chain) (r : EventLog) : Prop :=
  ∃ n, r.block_number = some n ∧ r.block_hash = some (net.canonical chain n).debug

/-- The stored hash is another one. -/
def EventLog.IsOrphanOn (net : Network) (chain : Chain) (r : EventLog) : Prop :=
  ∃ n h, r.block_number = some n ∧ r.block_hash = some h ∧ h ≠ (net.canonical chain n).debug

/-! ## What a round has been told -/

/-- The finalized number of the last answer that has one. -/
def toldAfter (told : Option Int) : (o : Op) → o.Ans → Option Int
  | .rpc (.beaconFinalized _), x => match readBeaconResponse x with
      | .ok n => some n
      | .error _ => told
  | .rpc (.ethGetBlockByNumber _ .finalized), x => match readElFinalized x with
      | .ok n => some n
      | .error _ => told
  | _, _ => told

/-- The finalized number that the round has been told last. -/
def Running.told (r : Running) : Option Int :=
  r.trace.foldl (fun told e => toldAfter told e.op e.ans) none

/-- `P` lets the lookups of finalized numbers through and remembers what they tell. -/
structure Remembers (P : Protocol Calls (Option Int)) : Prop where
  beacon : ∀ g url, P.allows g (.rpc (.beaconFinalized url))
  el : ∀ g url, P.allows g (.rpc (.ethGetBlockByNumber url .finalized))
  next : P.next = toldAfter

/-- A number that is returned is the one told last. -/
def Reported (told : Option Int) : Except (Exit BridgeValidatorError) Int → Prop
  | .ok n => told = some n
  | .error (.error _) => True
  | .error (.panic _) => False

namespace Remembers

variable {P : Protocol Calls (Option Int)} {g : Option Int} {bc_rpc : Option String}
  {el_rpcs : List String}

theorem after_trace (hP : Remembers P) (r : Running) : P.after none r.trace = r.told := by
  rw [Protocol.after_eq_foldl, hP.next]
  rfl

theorem follows_finalizedFromElRpcs (hP : Remembers P) :
    Act.Follows P g (finalizedFromElRpcs el_rpcs) Reported := by
  induction el_rpcs generalizing g with
  | nil => trivial
  | cons el_rpc rest ih =>
      simp only [finalizedFromElRpcs, getFinalizedBlockFromEl, Act.follows_bind,
        Act.follows_attempt, follows_await, Act.follows_orThrow]
      refine ⟨hP.el g el_rpc, fun x _ => ?_⟩
      -- a number ends the walk, and is the one told last
      rw [hP.next]
      refine ⟨fun n hn => ?_, fun _ _ => ih⟩
      show toldAfter g _ x = some n
      simp only [toldAfter, hn]

theorem follows_getFinalizedBlockNumber (hP : Remembers P) :
    Act.Follows P g (getFinalizedBlockNumber bc_rpc el_rpcs) Reported := by
  cases bc_rpc with
  | none => exact hP.follows_finalizedFromElRpcs
  | some bc_rpc =>
      simp only [getFinalizedBlockNumber, getFinalizedBlockFromBeacon, Act.follows_bind,
        Act.follows_attempt, follows_await, Act.follows_orThrow]
      refine ⟨hP.beacon g bc_rpc, fun x _ => ?_⟩
      rw [hP.next]
      refine ⟨fun n hn => ?_, fun _ _ => hP.follows_finalizedFromElRpcs⟩
      show toldAfter g _ x = some n
      simp only [toldAfter, hn]

end Remembers

/-! ## Two nodes for each chain -/

namespace Deployment

/-- No beacon nodes. -/
def twoNodes : Config :=
  { config with
    eth_rpc := ["http://eth-el-1", "http://eth-el-2"]
    gc_rpc := ["http://gc-el-1", "http://gc-el-2"]
    eth_rpc_ne := by simp
    gc_rpc_ne := by simp
    eth_bc_rpc := []
    gc_bc_rpc := [] }

/-- The same hash is canonical at every number. -/
def network (canonical : B256) : Network where
  canonical _ _ := canonical
  chainOf url := if url = "http://gc-el-1" ∨ url = "http://gc-el-2" then .gc else .eth

/-- A node that has finalized the canonical chain up to here and follows a fork
from there on. -/
def forkedView (canonical : Int → B256) (finalized : Int) (fork : B256) : ElView canonical where
  finalized := finalized
  hashAt n := if n ≤ finalized then some (canonical n) else some fork
  agrees := by
    intro n h hle hhash
    rw [if_pos hle] at hhash
    exact (Option.some.inj hhash).symm

/-- The first node of each chain has finalized block 200, and the second one only
block 50; logs come from the given ones. -/
def lagging (canonical : B256) (first : Chain → String) : Views (network canonical) where
  beacon _ := 0
  el url := forkedView _
    (if url = "http://eth-el-1" ∨ url = "http://gc-el-1" then 200 else 50) (.repeatByte 32 0xaa)
  first := first

/-- The second node of the chain. -/
def second (chain : Chain) : String :=
  if chain = .gc then "http://gc-el-2" else "http://eth-el-2"

/-- The first one. -/
def primary (chain : Chain) : String :=
  if chain = .gc then "http://gc-el-1" else "http://eth-el-1"

/-- Nodes that have finalized block 200 tell so, block hashes are to be had from
one node only, and the last block of every range has one log. -/
def asked (canonical : B256) (from_node : String) : Oracle (World.network (network canonical)) :=
  fun w r =>
    match r with
    | .ethGetBlockByNumber url .finalized =>
        (if (w.el url).finalized = 200 then elBlock "0xc8" canonical
          else .transportError "timeout", w)
    | .ethGetBlockByNumber url (.number n) =>
        (if url = from_node then
          match (w.el url).hashAt n with
          | some b => elBlock "0x64" b
          | none => .transportError "timeout"
        else .transportError "timeout", w)
    | .getLogs chain filter =>
        (match (w.el (w.first chain)).hashAt (asI64 filter.to_block) with
          | some b =>
              if (network canonical).chainOf (w.first chain) = chain ∧
                  filter.from_block ≤ filter.to_block then
                .ok [log filter.address filter.to_block b]
              else .error "timeout"
          | none => .error "timeout", w)
    | r => ((lookups canonical () r).1, w)

theorem readHashAnswer_elBlock (number : String) (hash : B256) :
    readHashAnswer (elBlock number hash) = .hash hash.debug :=
  congrArg HashAnswer.hash (toAsciiLowercase_debug hash)

theorem asked_truthful (canonical : B256) (from_node : String) :
    (asked canonical from_node).Truthful := by
  intro w r
  refine ⟨by cases r with | ethGetBlockByNumber url tag => cases tag <;> rfl | _ => rfl, ?_⟩
  cases r with
  | ethGetBlockByNumber url tag =>
      cases tag with
      | safe => trivial
      | finalized =>
          intro n hread
          simp only [asked] at hread
          split at hread
          · rename_i hhead
            have hparse : readElFinalized (elBlock "0xc8" canonical) = .ok 200 := rfl
            rw [hhead]
            exact (Except.ok.inj (hparse.symm.trans hread)).symm
          · cases hread
      | number n =>
          intro hash hgives
          have hread := readHashAnswer_eq_hash.mpr ⟨hash, hgives, rfl⟩
          simp only [asked] at hread
          split at hread
          · split at hread
            · rename_i b hb
              rw [readHashAnswer_elBlock] at hread
              exact ⟨b, hb, (HashAnswer.hash.inj hread).symm⟩
            · cases hread
          · cases hread
  | getLogs chain filter =>
      simp only [asked]
      cases hb : (w.el (w.first chain)).hashAt (asI64 filter.to_block) with
      | none => trivial
      | some b =>
          by_cases hrange : (network canonical).chainOf (w.first chain) = chain ∧
              filter.from_block ≤ filter.to_block
          · simp only [if_pos hrange]
            refine ⟨hrange.1, ?_⟩
            intro l hl
            obtain rfl := List.mem_singleton.mp hl
            exact ⟨filter.to_block, b, rfl, rfl, hrange.2, le_refl _, hb⟩
          · simp only [if_neg hrange]
  | beaconFinalized url => exact nofun
  | _ => trivial

end Deployment

end BridgeValidator
