import BridgeValidator.EventLogs
import BridgeValidator.Framework.Program

/-!
# The calls the services make

One signature for every effect of the program: RPC, the channel between the
processors and the sender, and the database. The services are programs over
it; what may be answered is decided by the system they run in.
-/

namespace BridgeValidator

open Interaction

/-! ## RPC -/

inductive BlockTag where
  | safe
  | finalized
  | number (n : Int)
deriving DecidableEq, Repr

/-- `Filter::new().address(..).event(..).from_block(..).to_block(..)`. -/
structure Filter where
  address : Address
  event : String
  from_block : Nat
  to_block : Nat
deriving DecidableEq

inductive Rpc where
  /-- `GET {bc_rpc}/eth/v2/beacon/blocks/finalized`. -/
  | beaconFinalized (bc_rpc : String)
  /-- `eth_getBlockByNumber(tag, false)` at one EL endpoint. -/
  | ethGetBlockByNumber (el_rpc : String) (tag : BlockTag)
  /-- `eth_getLogs` through the provider set up for `chain`. -/
  | getLogs (chain : Chain) (filter : Filter)
  | connect (url : String)
  | view (call : ViewCall)
  /-- `event_log_id` is not sent: it names the row the transaction is for. -/
  | send (event_log_id : Int) (signer : Address) (call : TxCall)
  | getReceipt (tx : Nat)
deriving DecidableEq

abbrev Rpc.Ans : Rpc → Type
  | .beaconFinalized _ => HttpResponse
  | .ethGetBlockByNumber .. => HttpResponse
  | .getLogs .. => Except String (List RpcLog)
  | .connect _ => Except String Unit
  | .view call => Except String call.Ret
  | .send .. => Except String Nat
  | .getReceipt _ => Except String Receipt

/-! ## The channel -/

/-- What a processor hands to the sender. -/
structure SenderData where
  on_chain_calldata : OnChainCallData
  event_log_id : Int
  stage : Stage
deriving DecidableEq

/-! ## All calls -/

inductive Op where
  | rpc (r : Rpc)
  | channelSend (data : SenderData)
  | db (st : Stmt)

abbrev Op.Ans : Op → Type
  | .rpc r => r.Ans
  | .channelSend _ => Except String Unit
  | .db st => Except String st.Ret

/-- The signature the services are programs over. -/
abbrev Calls : Sig := ⟨Op, Op.Ans⟩

/-- An async function returning `Result<α, BridgeValidatorError>`. -/
abbrev Action (α : Type) : Type := Act Calls BridgeValidatorError α

/-- Await one call. -/
def await (o : Op) : Action o.Ans := @Act.perform Calls BridgeValidatorError o

/-- `result.map_err(err)?`. -/
def orErr {α : Type} (err : String → BridgeValidatorError) (r : Except String α) : Action α :=
  Act.orThrow (r.mapError err)

/-- `statement.await?`. -/
def sql (st : Stmt) : Action st.Ret := do
  orErr .Db (← await (.db st))

/-- `view.call().await.map_err(ContractCall)?`. -/
def view (call : ViewCall) : Action call.Ret := do
  orErr .ContractCall (← await (.rpc (.view call)))

/-- `ProviderBuilder::new()..connect(url).await.map_err(RpcConnect)?`. -/
def connect (url : String) : Action Unit := do
  orErr .RpcConnect (← await (.rpc (.connect url)))

/-! ## Reasoning about the awaited calls

A fallible call is followed on its two answers separately. -/

section

variable {σ α : Type} {P : Protocol Calls σ} {g : σ}

theorem forall_except {ε : Type} {p : Except ε α → Prop} :
    (∀ x, p x) ↔ (∀ a, p (.ok a)) ∧ ∀ e, p (.error e) :=
  ⟨fun h => ⟨fun _ => h _, fun _ => h _⟩, fun h x => by cases x <;> simp [h]⟩

theorem follows_await {o : Op} {Q : σ → Except (Exit BridgeValidatorError) o.Ans → Prop} :
    @Act.Follows Calls (no_index _) σ _ P g (await o) Q ↔
      P.allows g o ∧ ∀ x, P.admits g o x → Q (P.next g o x) (.ok x) := Iff.rfl

/-- A step that makes no call goes on with its value or stops with its error. -/
theorem follows_orErr {err : String → BridgeValidatorError} {r : Except String α}
    {Q : σ → Except (Exit BridgeValidatorError) α → Prop} :
    Act.Follows P g (orErr err r) Q ↔
      (∀ a, r = .ok a → Q g (.ok a)) ∧ ∀ e, r = .error e → Q g (.error (.error (err e))) := by
  cases r <;> simp [orErr, Except.mapError, Act.follows_orThrow]

theorem follows_sql {st : Stmt} {Q : σ → Except (Exit BridgeValidatorError) st.Ret → Prop} :
    @Act.Follows Calls (no_index _) σ _ P g (sql st) Q ↔ P.allows g (.db st) ∧
      (∀ a, P.admits g (.db st) (.ok a) → Q (P.next g (.db st) (.ok a)) (.ok a)) ∧
      ∀ e, P.admits g (.db st) (.error e) →
        Q (P.next g (.db st) (.error e)) (.error (.error (.Db e))) :=
  Act.follows_bind.trans (follows_await.trans (and_congr_right fun _ => forall_except))

/-- A statement that returns is one call. -/
theorem trace_of_sql {st : Stmt} {tr : Trace Calls} {a : st.Ret}
    (h : Prog.Runs (sql st) tr (.ok a)) : tr = [⟨.db st, .ok a⟩] := by
  obtain ⟨x, rest, rfl, h⟩ := h
  cases x with
  | error e => cases h.2
  | ok b =>
      obtain ⟨rfl, heq⟩ := h
      cases heq
      rfl

theorem follows_view {call : ViewCall}
    {Q : σ → Except (Exit BridgeValidatorError) call.Ret → Prop} :
    @Act.Follows Calls (no_index _) σ _ P g (view call) Q ↔ P.allows g (.rpc (.view call)) ∧
      (∀ a, P.admits g (.rpc (.view call)) (.ok a) →
        Q (P.next g (.rpc (.view call)) (.ok a)) (.ok a)) ∧
      ∀ e, P.admits g (.rpc (.view call)) (.error e) →
        Q (P.next g (.rpc (.view call)) (.error e)) (.error (.error (.ContractCall e))) :=
  Act.follows_bind.trans (follows_await.trans (and_congr_right fun _ => forall_except))

theorem follows_connect {url : String}
    {Q : σ → Except (Exit BridgeValidatorError) Unit → Prop} :
    Act.Follows P g (connect url) Q ↔ P.allows g (.rpc (.connect url)) ∧
      (∀ a, P.admits g (.rpc (.connect url)) (.ok a) →
        Q (P.next g (.rpc (.connect url)) (.ok a)) (.ok a)) ∧
      ∀ e, P.admits g (.rpc (.connect url)) (.error e) →
        Q (P.next g (.rpc (.connect url)) (.error e)) (.error (.error (.RpcConnect e))) :=
  Act.follows_bind.trans (follows_await.trans (and_congr_right fun _ => forall_except))

end

end BridgeValidator
