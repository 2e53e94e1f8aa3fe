import BridgeValidator.Calls

/-!
# Finality: the latest finalized block

Beacon first, then the EL array in order. Accepting a beacon body means
deserialising it into the declared structs, so their fields and types are
listed here; only `block_number` is kept.
-/

namespace BridgeValidator

open Interaction

/-! ## The beacon response -/

/-- The declared type of a field, as far as acceptance goes. `required` fields
must be present and are decoded by the enclosing struct. -/
inductive FieldShape where
  | optString
  | optValues
  | optAddress
  | optEth1Data
  | requiredString
  | required
deriving DecidableEq

/-- The members a struct visitor sees: an object's known members, none of them
twice, or an array read in declaration order. -/
def structFields (names : List String) : Json → Option (List (String × Json))
  | .object members =>
      let known := members.filter fun m => decide (m.1 ∈ names)
      if (known.map Prod.fst).Nodup then some known else none
  | .array xs => if xs.length ≤ names.length then some (names.zip xs) else none
  | _ => none

def fieldOf (fields : List (String × Json)) (name : String) : Option Json :=
  (fields.find? fun m => m.1 == name).map Prod.snd

/-- A 20-byte value: 40 hex digits with an optional `0x`, or an array of bytes. -/
def isAddressJson : Json → Bool
  | .string s =>
      let ds := match s.toList with
        | '0' :: 'x' :: rest => rest
        | cs => cs
      ds.length == 40 && ds.all fun c => (hexVal c).isSome
  | .array xs => xs.length == 20 && xs.all fun
      | .number (.int n) => decide (0 ≤ n ∧ n ≤ 255)
      | _ => false
  | _ => false

def eth1DataFields : List String := ["deposit_root", "deposit_count", "block_hash"]

def isEth1Data (v : Json) : Bool :=
  match structFields eth1DataFields v with
  | none => false
  | some fs => eth1DataFields.all fun name => ((fieldOf fs name).bind Json.asStr).isSome

/-- A field with `#[serde(default)]` may be absent or `null`. -/
def FieldShape.accepts : FieldShape → Option Json → Bool
  | .optString, some v => v.isNull || v.asStr.isSome
  | .optValues, some v => v.isNull || (match v with | .array _ => true | _ => false)
  | .optAddress, some v => v.isNull || isAddressJson v
  | .optEth1Data, some v => v.isNull || isEth1Data v
  | .requiredString, some v => v.asStr.isSome
  | .required, some _ => true
  | .requiredString, none => false
  | .required, none => false
  | _, none => true

/-- The accepted fields of a struct declared with these fields. -/
def deserializeStruct (decl : List (String × FieldShape)) (v : Json) :
    Option (List (String × Json)) :=
  (structFields (decl.map Prod.fst) v).bind fun fs =>
    if decl.all fun d => d.2.accepts (fieldOf fs d.1) then some fs else none

def beaconBlockResponseDecl : List (String × FieldShape) := [("data", .required)]

def blockDataDecl : List (String × FieldShape) :=
  [("message", .required), ("signature", .optString)]

def blockMessageDecl : List (String × FieldShape) :=
  [("slot", .optString), ("proposer_index", .optString), ("parent_root", .optString),
   ("state_root", .optString), ("body", .required)]

def blockBodyDecl : List (String × FieldShape) :=
  [("randao_reveal", .optString), ("eth1_data", .optEth1Data), ("graffiti", .optString),
   ("proposer_slashings", .optValues), ("attester_slashings", .optValues),
   ("attestations", .optValues), ("deposits", .optValues), ("voluntary_exits", .optValues),
   ("execution_payload", .required)]

def executionPayloadDecl : List (String × FieldShape) :=
  [("parent_hash", .optString), ("fee_recipient", .optAddress), ("state_root", .optString),
   ("receipts_root", .optString), ("logs_bloom", .optString), ("prev_randao", .optString),
   ("block_number", .required), ("gas_limit", .optString), ("gas_used", .optString),
   ("timestamp", .optString), ("extra_data", .optString), ("base_fee_per_gas", .optString),
   ("block_hash", .optString), ("transactions", .optString), ("withdrawals", .optString),
   ("blob_gas_used", .optString), ("excess_blob_gas", .optString)]

/-- An `i64` field: an integer number in range. -/
def i64OfJson : Json → Option Int
  | .number (.int n) => if -i64Max - 1 ≤ n ∧ n ≤ i64Max then some n else none
  | _ => none

/-- `data.message.body.execution_payload.block_number` of an accepted body. -/
def beaconBlockNumber (v : Json) : Option Int := do
  let response ← deserializeStruct beaconBlockResponseDecl v
  let data ← deserializeStruct blockDataDecl (← fieldOf response "data")
  let message ← deserializeStruct blockMessageDecl (← fieldOf data "message")
  let body ← deserializeStruct blockBodyDecl (← fieldOf message "body")
  let payload ← deserializeStruct executionPayloadDecl (← fieldOf body "execution_payload")
  i64OfJson (← fieldOf payload "block_number")

/-! ## The resolver -/

/-- The decoded beacon answer. -/
def readBeaconResponse : HttpResponse → Except BridgeValidatorError Int
  | .transportError e => .error (.Http e)
  | .response status body =>
      if isSuccess status then
        match body with
        | .error e => .error (.Http e)
        | .ok v =>
            match beaconBlockNumber v with
            | none => .error (.Http "error decoding response body")
            | some n => .ok n
      else .error (.BeaconHttpStatus status)

/-- The decoded answer to `eth_getBlockByNumber("finalized", false)`. -/
def readElFinalized : HttpResponse → Except BridgeValidatorError Int
  | .transportError e => .error (.Http e)
  | .response status body =>
      if isSuccess status then
        match body with
        | .error e => .error (.Http e)
        | .ok v =>
            match ((v.index "result").index "number").asStr with
            | none => .error .EmptyElResponse
            | some s =>
                match parseBlockNumber s with
                | none => .error (.ParseInt s)
                | some n => .ok n
      else .error (.ElHttpStatus status)

def getFinalizedBlockFromBeacon (bc_rpc : String) : Action Int := do
  Act.orThrow (readBeaconResponse (← await (.rpc (.beaconFinalized bc_rpc))))

def getFinalizedBlockFromEl (el_rpc : String) : Action Int := do
  Act.orThrow (readElFinalized (← await (.rpc (.ethGetBlockByNumber el_rpc .finalized))))

/-- The EL fallbacks, in order. -/
def finalizedFromElRpcs : List String → Action Int
  | [] => Act.throw .AllRpcsFailedForFinalizedBlock
  | el_rpc :: rest => do
      match ← Act.attempt (getFinalizedBlockFromEl el_rpc) with
      | .ok block_number => return block_number
      | .error _ => finalizedFromElRpcs rest

def getFinalizedBlockNumber (bc_rpc : Option String) (el_rpcs : List String) : Action Int := do
  match bc_rpc with
  | none => finalizedFromElRpcs el_rpcs
  | some bc_rpc =>
      match ← Act.attempt (getFinalizedBlockFromBeacon bc_rpc) with
      | .ok block_number => return block_number
      | .error _ => finalizedFromElRpcs el_rpcs

end BridgeValidator
