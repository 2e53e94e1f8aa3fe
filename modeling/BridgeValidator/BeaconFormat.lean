import BridgeValidator.Service.Finality
import Mathlib.Algebra.Group.Nat.Defs

/-!
# Beacon answers on the wire

The Beacon API writes every integer as a decimal text, transactions as an array of
texts and withdrawals as an array of objects. The structs declare an integer, a text
and a text. Each of the three fields is enough to refuse the whole body, so no block
a beacon node can serve is read, and every resolution falls through to the execution
layer.
-/

namespace BridgeValidator

open Interaction

/-! ## The format -/

/-- How a member is written. -/
inductive WireType where
  /-- an integer of so many bits, as a decimal text -/
  | uint (bits : Nat)
  /-- so many bytes, in hex -/
  | hex (bytes : Nat)
  /-- no more than so many -/
  | hexUpTo (bytes : Nat)
  | transactions
  | objects
  | object
deriving DecidableEq

/-- The value of a decimal text without leading zeros. -/
def decimal (s : String) : Option Nat :=
  let cs := s.toList
  if cs ≠ [] ∧ cs.all Char.isDigit = true ∧ (cs.head? = some '0' → cs = ['0']) then
    some (cs.foldl (fun acc c => 10 * acc + (c.toNat - 48)) 0)
  else none

/-- How many bytes the text is the hex form of, two digits a byte. -/
def hexBytes (s : String) : Option Nat :=
  match s.toList with
  | '0' :: 'x' :: ds =>
      if ds.all (fun c => (hexVal c).isSome) = true ∧ ds.length % 2 = 0 then some (ds.length / 2)
      else none
  | _ => none

/-- `MAX_BYTES_PER_TRANSACTION` and `MAX_TRANSACTIONS_PER_PAYLOAD`. -/
def maxBytesPerTransaction : Nat := 2 ^ 30

def maxTransactionsPerPayload : Nat := 2 ^ 20

def WireType.admits : WireType → Json → Bool
  | .uint bits, .string s => (decimal s).any fun n => decide (n < 2 ^ bits)
  | .hex bytes, .string s => hexBytes s == some bytes
  | .hexUpTo bytes, .string s => (hexBytes s).any fun n => decide (n ≤ bytes)
  | .transactions, .array xs => decide (xs.length ≤ maxTransactionsPerPayload) &&
      xs.all fun x => (x.asStr.bind hexBytes).any fun n => decide (n ≤ maxBytesPerTransaction)
  | .objects, .array xs => xs.all fun
      | .object _ => true
      | _ => false
  | .object, .object _ => true
  | _, _ => false

/-- An object without repeated names. -/
def Json.isObject : Json → Bool
  | .object members => decide (members.map Prod.fst).Nodup
  | _ => false

/-- An object with all the required members, in which a member of a given name is written
as its type says. Further members may be present. -/
def hasMembers (required optional : List (String × WireType)) (v : Json) : Bool :=
  v.isObject && (required.all fun f => (v.get? f.1).any f.2.admits) &&
    optional.all fun f => (v.get? f.1).all f.2.admits

def eth1DataFormat : List (String × WireType) :=
  [("deposit_root", .hex 32), ("deposit_count", .uint 64), ("block_hash", .hex 32)]

def blockFormat : List (String × WireType) :=
  [("slot", .uint 64), ("proposer_index", .uint 64), ("parent_root", .hex 32),
   ("state_root", .hex 32), ("body", .object)]

def bodyFormat : List (String × WireType) :=
  [("randao_reveal", .hex 96), ("eth1_data", .object), ("graffiti", .hex 32),
   ("proposer_slashings", .objects), ("attester_slashings", .objects),
   ("attestations", .objects), ("deposits", .objects), ("voluntary_exits", .objects),
   ("execution_payload", .object)]

def payloadFormat : List (String × WireType) :=
  [("parent_hash", .hex 32), ("fee_recipient", .hex 20), ("state_root", .hex 32),
   ("receipts_root", .hex 32), ("logs_bloom", .hex 256), ("prev_randao", .hex 32),
   ("block_number", .uint 64), ("gas_limit", .uint 64), ("gas_used", .uint 64),
   ("timestamp", .uint 64), ("extra_data", .hexUpTo 32), ("base_fee_per_gas", .uint 256),
   ("block_hash", .hex 32), ("transactions", .transactions)]

/-- Members that came with later forks. -/
def laterPayloadFormat : List (String × WireType) :=
  [("withdrawals", .objects), ("blob_gas_used", .uint 64), ("excess_blob_gas", .uint 64)]

/-- The response to `getBlockV2` for a block after the merge, with the number of its
execution payload. -/
structure ConformingBlock (v : Json) (n : Nat) : Prop where
  response : hasMembers [("data", .object)] [] v = true
  data : hasMembers [("message", .object), ("signature", .hex 96)] [] (v.index "data") = true
  message : hasMembers blockFormat [] ((v.index "data").index "message") = true
  body : hasMembers bodyFormat []
    (((v.index "data").index "message").index "body") = true
  eth1_data : hasMembers eth1DataFormat []
    ((((v.index "data").index "message").index "body").index "eth1_data") = true
  payload : hasMembers payloadFormat laterPayloadFormat
    ((((v.index "data").index "message").index "body").index "execution_payload") = true
  number : ∃ s, ((((v.index "data").index "message").index "body").index
    "execution_payload").get? "block_number" = some (.string s) ∧ decimal s = some n

/-! ## What the structs make of it -/

section

variable {v w : Json} {names : List String} {fields : List (String × Json)} {name : String}

/-- Of distinct names the first is the last. -/
theorem find?_reverse_of_nodup {members : List (String × Json)}
    (h : (members.map Prod.fst).Nodup) :
    members.reverse.find? (fun m => m.1 == name) = members.find? fun m => m.1 == name := by
  cases hfirst : members.find? fun m => m.1 == name with
  | none =>
      rw [List.find?_eq_none] at hfirst ⊢
      intro m hm
      exact hfirst m (List.mem_reverse.mp hm)
  | some m =>
      have hm := List.mem_of_find?_eq_some hfirst
      have hname : m.1 = name := by simpa using List.find?_some hfirst
      cases hlast : members.reverse.find? fun m => m.1 == name with
      | none =>
          have hnot := List.find?_eq_none.mp hlast m (List.mem_reverse.mpr hm)
          exact absurd (by simpa using hname) hnot
      | some m' =>
          have hm' : m' ∈ members := List.mem_reverse.mp (List.mem_of_find?_eq_some hlast)
          have hname' : m'.1 = name := by simpa using List.find?_some hlast
          rw [List.inj_on_of_nodup_map h hm' hm (hname'.trans hname.symm)]

/-- A struct sees an object's own members. -/
theorem fieldOf_structFields (hobject : v.isObject = true)
    (h : structFields names v = some fields) (hname : name ∈ names) :
    fieldOf fields name = v.get? name := by
  cases v with
  | object members =>
      simp only [structFields] at h
      split at h
      · rename_i hnodup
        cases h
        have hkept : (members.filter fun m => decide (m.1 ∈ names)).reverse.find?
            (fun m => m.1 == name) = members.reverse.find? fun m => m.1 == name := by
          rw [← List.filter_reverse, List.find?_filter]
          congr 1
          funext m
          by_cases hm : m.1 = name
          · simp [hm, hname]
          · simp [hm]
        rw [fieldOf, Json.get?, ← hkept, find?_reverse_of_nodup hnodup]
      · cases h
  | _ => cases hobject

theorem deserializeStruct_eq_some {decl : List (String × FieldShape)}
    (hobject : v.isObject = true) (h : deserializeStruct decl v = some fields) :
    (∀ d ∈ decl, d.2.accepts (v.get? d.1) = true) ∧
      ∀ name ∈ decl.map Prod.fst, fieldOf fields name = v.get? name := by
  obtain ⟨fs, hfs, h⟩ := Option.bind_eq_some_iff.mp h
  split at h
  · rename_i hall
    cases h
    have hfield : ∀ name ∈ decl.map Prod.fst, fieldOf fields name = v.get? name :=
      fun name hname => fieldOf_structFields hobject hfs hname
    refine ⟨?_, hfield⟩
    intro d hd
    rw [← hfield d.1 (List.mem_map_of_mem hd)]
    exact List.all_eq_true.mp hall d hd
  · cases h

/-- A struct with a member of the wrong shape is refused. -/
theorem deserializeStruct_eq_none {decl : List (String × FieldShape)}
    (hobject : v.isObject = true) {d : String × FieldShape} (hd : d ∈ decl)
    (hshape : d.2.accepts (v.get? d.1) = false) : deserializeStruct decl v = none := by
  cases h : deserializeStruct decl v with
  | none => rfl
  | some fields =>
      have haccepts := (deserializeStruct_eq_some hobject h).1 d hd
      rw [hshape] at haccepts
      cases haccepts

theorem object_of_hasMembers {required optional : List (String × WireType)}
    (h : hasMembers required optional v = true) : v.isObject = true := by
  simp only [hasMembers, Bool.and_eq_true] at h
  exact h.1.1

theorem admits_of_hasMembers {required optional : List (String × WireType)}
    (h : hasMembers required optional v = true) {f : String × WireType} (hf : f ∈ required) :
    ∃ w, v.get? f.1 = some w ∧ f.2.admits w = true := by
  simp only [hasMembers, Bool.and_eq_true] at h
  exact Option.any_eq_true _ _ |>.mp (List.all_eq_true.mp h.1.2 f hf)

/-- What an execution payload is read as. -/
def payloadBlockNumber (v : Json) : Option Int := do
  let payload ← deserializeStruct executionPayloadDecl v
  i64OfJson (← fieldOf payload "block_number")

/-! ### Three fields, each on its own -/

theorem payload_refused_of_block_number (hobject : v.isObject = true) {s : String}
    (h : v.get? "block_number" = some (.string s)) : payloadBlockNumber v = none := by
  unfold payloadBlockNumber
  cases hfields : deserializeStruct executionPayloadDecl v with
  | none => rfl
  | some fields =>
      have hfield := (deserializeStruct_eq_some hobject hfields).2 "block_number" (by decide)
      simp only [Option.bind_eq_bind, Option.bind_some, hfield, h, i64OfJson]

theorem payload_refused_of_transactions (hobject : v.isObject = true) {xs : List Json}
    (h : v.get? "transactions" = some (.array xs)) : payloadBlockNumber v = none := by
  have hd : ("transactions", FieldShape.optString) ∈ executionPayloadDecl := by decide
  unfold payloadBlockNumber
  rw [deserializeStruct_eq_none hobject hd (by rw [h]; rfl)]
  rfl

theorem payload_refused_of_withdrawals (hobject : v.isObject = true) {xs : List Json}
    (h : v.get? "withdrawals" = some (.array xs)) : payloadBlockNumber v = none := by
  have hd : ("withdrawals", FieldShape.optString) ∈ executionPayloadDecl := by decide
  unfold payloadBlockNumber
  rw [deserializeStruct_eq_none hobject hd (by rw [h]; rfl)]
  rfl

/-- A body is read through its payload. -/
theorem beaconBlockNumber_of_path {n : Int} (h : beaconBlockNumber v = some n)
    (hresponse : v.isObject = true) (hdata : (v.index "data").isObject = true)
    (hmessage : ((v.index "data").index "message").isObject = true)
    (hbody : (((v.index "data").index "message").index "body").isObject = true) :
    payloadBlockNumber ((((v.index "data").index "message").index "body").index
      "execution_payload") = some n := by
  have hstep : ∀ {decl : List (String × FieldShape)} {v w : Json} {fields name},
      v.isObject = true → deserializeStruct decl v = some fields →
      name ∈ decl.map Prod.fst → fieldOf fields name = some w → v.index name = w := by
    intro decl v w fields name hobject hfields hname hfield
    rw [(deserializeStruct_eq_some hobject hfields).2 name hname] at hfield
    rw [Json.index, hfield, Option.getD_some]
  unfold beaconBlockNumber at h
  simp only [Option.bind_eq_bind, Option.bind_eq_some_iff] at h
  obtain ⟨response, h₁, data, h₂, fields, h₃, message, h₄, fields', h₅, body, h₆, fields'', h₇,
    payload, h₈, fields₃, h₉, number, h₁₀, hn⟩ := h
  obtain rfl := hstep hresponse h₁ (by decide) h₂
  obtain rfl := hstep hdata h₃ (by decide) h₄
  obtain rfl := hstep hmessage h₅ (by decide) h₆
  obtain rfl := hstep hbody h₇ (by decide) h₈
  simp only [payloadBlockNumber, Option.bind_eq_bind, Option.bind_eq_some_iff]
  exact ⟨fields₃, h₉, number, h₁₀, hn⟩

/-- No conforming block is read, whatever its number. -/
theorem beaconBlockNumber_of_conforming {n : Nat} (h : ConformingBlock v n) :
    beaconBlockNumber v = none := by
  obtain ⟨s, hs, -⟩ := h.number
  have hpayload := payload_refused_of_block_number (object_of_hasMembers h.payload) hs
  cases hnumber : beaconBlockNumber v with
  | none => rfl
  | some k =>
      have hread := beaconBlockNumber_of_path hnumber (object_of_hasMembers h.response)
        (object_of_hasMembers h.data) (object_of_hasMembers h.message)
        (object_of_hasMembers h.body)
      cases hpayload.symm.trans hread

theorem readBeaconResponse_of_conforming {n : Nat} (h : ConformingBlock v n) :
    readBeaconResponse (.response 200 (.ok v)) =
      .error (.Http "error decoding response body") := by
  simp only [readBeaconResponse, beaconBlockNumber_of_conforming h]
  rfl

/-- With another `block_number` it would not be read either: the transactions of a
conforming block are refused on their own. -/
theorem payload_refused_of_conforming {n : Nat} (h : ConformingBlock v n) {payload : Json}
    (hobject : payload.isObject = true)
    (hsame : payload.get? "transactions" =
      ((((v.index "data").index "message").index "body").index "execution_payload").get?
        "transactions") : payloadBlockNumber payload = none := by
  obtain ⟨w, hw, hadmits⟩ := admits_of_hasMembers h.payload
    (show ("transactions", WireType.transactions) ∈ payloadFormat by decide)
  cases w with
  | array xs => exact payload_refused_of_transactions hobject (hsame.trans hw)
  | _ => cases hadmits

end

/-! ## The resolver -/

/-- The EL providers asked for their finalized block, in the order asked. -/
def elCalls (tr : Trace Calls) : List String :=
  tr.filterMap fun e => match e.op with
    | .rpc (.ethGetBlockByNumber el_rpc .finalized) => some el_rpc
    | _ => none

/-- The beacon source answered 200 with a conforming block of this number. -/
def ServedBlock (bc_rpc : Option String) (tr : Trace Calls) (url : String) (body : Json)
    (n : Nat) : Prop :=
  bc_rpc = some url ∧ ⟨.rpc (.beaconFinalized url), .response 200 (.ok body)⟩ ∈ tr ∧
    ConformingBlock body n

/-- The beacon's number is used where there is one, and the EL providers are asked in
order otherwise. -/
structure ResolvesByBeacon (bc_rpc : Option String) (el_rpcs : List String) (tr : Trace Calls)
    (result : Except (Exit BridgeValidatorError) Int) : Prop where
  beacon : ∀ url body n, ServedBlock bc_rpc tr url body n →
    (getFinalizedBlockFromBeacon url).Runs
      [⟨.rpc (.beaconFinalized url), .response 200 (.ok body)⟩] (.ok (n : Int)) ∧
    result = .ok (n : Int) ∧ elCalls tr = []
  fallback : ∃ k, elCalls tr = el_rpcs.take k

variable {bc_rpc : Option String} {el_rpcs : List String} {tr : Trace Calls}
  {result : Except (Exit BridgeValidatorError) Int}

/-- A question whose answer is the result. -/
theorem runs_getFinalizedBlockFromBeacon {url : String} :
    (getFinalizedBlockFromBeacon url).Runs tr result ↔ ∃ x,
      tr = [⟨.rpc (.beaconFinalized url), x⟩] ∧
      result = (readBeaconResponse x).mapError Exit.error := by
  constructor
  · rintro ⟨x, rest, rfl, h⟩
    simp only [Prog.bind] at h
    cases hread : readBeaconResponse x with
    | ok n =>
        rw [hread] at h
        obtain ⟨rfl, rfl⟩ := h
        exact ⟨x, rfl, by rw [hread]; rfl⟩
    | error e =>
        rw [hread] at h
        obtain ⟨rfl, rfl⟩ := h
        exact ⟨x, rfl, by rw [hread]; rfl⟩
  · rintro ⟨x, rfl, rfl⟩
    refine ⟨x, [], rfl, ?_⟩
    simp only [Prog.bind]
    cases readBeaconResponse x with
    | ok n => exact ⟨rfl, rfl⟩
    | error e => exact ⟨rfl, rfl⟩

theorem trace_of_getFinalizedBlockFromEl {el_rpc : String}
    (h : (getFinalizedBlockFromEl el_rpc).Runs tr result) :
    ∃ x, tr = [⟨.rpc (.ethGetBlockByNumber el_rpc .finalized), x⟩] := by
  obtain ⟨x, rest, rfl, h⟩ := h
  simp only [Prog.bind] at h
  cases hread : readElFinalized x with
  | ok n =>
      rw [hread] at h
      obtain ⟨rfl, -⟩ := h
      exact ⟨x, rfl⟩
  | error e =>
      rw [hread] at h
      obtain ⟨rfl, -⟩ := h
      exact ⟨x, rfl⟩

/-- Each provider is asked once, until one answers. -/
theorem elCalls_of_finalizedFromElRpcs (h : (finalizedFromElRpcs el_rpcs).Runs tr result) :
    (∃ k, elCalls tr = el_rpcs.take k) ∧
      ∀ e ∈ tr, ∃ el_rpc, e.op = .rpc (.ethGetBlockByNumber el_rpc .finalized) := by
  induction el_rpcs generalizing tr with
  | nil =>
      obtain ⟨rfl, -⟩ := h
      exact ⟨⟨0, rfl⟩, fun e he => by cases he⟩
  | cons el_rpc rest ih =>
      obtain ⟨tr₁, r, tr₂, rfl, hone, hrest⟩ := Act.runs_attempt_andThen.mp h
      obtain ⟨x, rfl⟩ := trace_of_getFinalizedBlockFromEl hone
      have hstop : (∃ k, elCalls ([⟨.rpc (.ethGetBlockByNumber el_rpc .finalized), x⟩] ++ []) =
          (el_rpc :: rest).take k) := ⟨1, rfl⟩
      have honly : ∀ e ∈ [(⟨.rpc (.ethGetBlockByNumber el_rpc .finalized), x⟩ : Event Calls)],
          ∃ el_rpc, e.op = .rpc (.ethGetBlockByNumber el_rpc .finalized) := by
        intro e he
        obtain rfl := List.mem_singleton.mp he
        exact ⟨el_rpc, rfl⟩
      rcases r with (e | m) | n
      · -- a failure: the next one is asked
        obtain ⟨⟨k, hk⟩, hall⟩ := ih hrest
        refine ⟨⟨k + 1, ?_⟩, ?_⟩
        · rw [List.take_succ_cons, ← hk]
          rfl
        · intro e he
          exact (List.mem_append.mp he).elim (honly e) (hall e)
      · obtain ⟨rfl, -⟩ := hrest
        exact ⟨hstop, fun e he => honly e he⟩
      · obtain ⟨rfl, -⟩ := hrest
        exact ⟨hstop, fun e he => honly e he⟩

theorem elCalls_of_getFinalizedBlockNumber
    (h : (getFinalizedBlockNumber bc_rpc el_rpcs).Runs tr result) :
    ∃ k, elCalls tr = el_rpcs.take k := by
  cases bc_rpc with
  | none => exact (elCalls_of_finalizedFromElRpcs h).1
  | some url =>
      obtain ⟨tr₁, r, tr₂, rfl, hbeacon, hrest⟩ := Act.runs_attempt_andThen.mp h
      obtain ⟨x, rfl, -⟩ := runs_getFinalizedBlockFromBeacon.mp hbeacon
      rcases r with (e | m) | n
      · exact (elCalls_of_finalizedFromElRpcs hrest).1
      · obtain ⟨rfl, -⟩ := hrest
        exact ⟨0, rfl⟩
      · obtain ⟨rfl, -⟩ := hrest
        exact ⟨0, rfl⟩

/-- **Resolving by the beacon source.** A resolution does what it should exactly when no
conforming block is served: the number of one that is served is never used. -/
theorem resolves_by_beacon_iff
    (hrun : (getFinalizedBlockNumber bc_rpc el_rpcs).Runs tr result) :
    ResolvesByBeacon bc_rpc el_rpcs tr result ↔
      ¬ ∃ url body n, ServedBlock bc_rpc tr url body n := by
  constructor
  · rintro h ⟨url, body, n, hserved⟩
    obtain ⟨hreads, -⟩ := h.beacon url body n hserved
    obtain ⟨x, htr, hread⟩ := runs_getFinalizedBlockFromBeacon.mp hreads
    cases htr
    -- the body conforms, so it has been refused
    rw [readBeaconResponse_of_conforming hserved.2.2] at hread
    cases hread
  · intro hnone
    refine ⟨?_, elCalls_of_getFinalizedBlockNumber hrun⟩
    intro url body n hserved
    exact absurd ⟨url, body, n, hserved⟩ hnone

/-! ### A block on the wire -/

namespace Deployment

/-- The beacon source is not in sync, and neither is the first provider. -/
def elFallback : Trace Calls :=
  [⟨.rpc (.beaconFinalized "http://beacon"), .response 503 (.error "EOF while parsing a value")⟩,
   ⟨.rpc (.ethGetBlockByNumber "http://el-1" .finalized), .transportError "timeout"⟩,
   ⟨.rpc (.ethGetBlockByNumber "http://el-2" .finalized),
     .response 200 (.ok (.object [("result", .object [("number", .string "0xc8")])]))⟩]

section

variable (hex : Nat → String)

def beaconPayload : Json := .object
  [("parent_hash", .string (hex 32)), ("fee_recipient", .string (hex 20)),
   ("state_root", .string (hex 32)), ("receipts_root", .string (hex 32)),
   ("logs_bloom", .string (hex 256)), ("prev_randao", .string (hex 32)),
   ("block_number", .string "200"), ("gas_limit", .string "30000000"),
   ("gas_used", .string "21000"), ("timestamp", .string "1700000000"),
   ("extra_data", .string (hex 0)), ("base_fee_per_gas", .string "7"),
   ("block_hash", .string (hex 32)), ("transactions", .array [.string (hex 110)]),
   ("withdrawals", .array [.object [("index", .string "1"), ("validator_index", .string "3"),
     ("address", .string (hex 20)), ("amount", .string "32000000000")]]),
   ("blob_gas_used", .string "0"), ("excess_blob_gas", .string "0")]

def beaconBody : Json := .object
  [("randao_reveal", .string (hex 96)),
   ("eth1_data", .object [("deposit_root", .string (hex 32)), ("deposit_count", .string "1"),
     ("block_hash", .string (hex 32))]),
   ("graffiti", .string (hex 32)), ("proposer_slashings", .array []),
   ("attester_slashings", .array []), ("attestations", .array []),
   ("deposits", .array []), ("voluntary_exits", .array []),
   ("sync_aggregate", .object [("sync_committee_bits", .string (hex 64)),
     ("sync_committee_signature", .string (hex 96))]),
   ("execution_payload", beaconPayload hex), ("bls_to_execution_changes", .array []),
   ("blob_kzg_commitments", .array [])]

def beaconMessage : Json := .object
  [("slot", .string "250"), ("proposer_index", .string "3"), ("parent_root", .string (hex 32)),
   ("state_root", .string (hex 32)), ("body", beaconBody hex)]

def beaconResponse : Json := .object
  [("version", .string "deneb"), ("execution_optimistic", .bool false), ("finalized", .bool true),
   ("data", .object [("message", beaconMessage hex), ("signature", .string (hex 96))])]

theorem hasMembers_beaconPayload (hhex : ∀ n, hexBytes (hex n) = some n) :
    hasMembers payloadFormat laterPayloadFormat (beaconPayload hex) = true := by
  have htexts : decimal "200" = some 200 ∧ decimal "30000000" = some 30000000 ∧
      decimal "21000" = some 21000 ∧ decimal "1700000000" = some 1700000000 ∧
      decimal "7" = some 7 ∧ decimal "0" = some 0 := by decide +kernel
  simp [hasMembers, payloadFormat, laterPayloadFormat, beaconPayload, Json.isObject, Json.get?,
    Json.asStr, WireType.admits, maxTransactionsPerPayload, maxBytesPerTransaction, hhex, htexts]

/-- Block 200 as it is written, whatever the bytes are. -/
theorem beaconResponse_conforms (hhex : ∀ n, hexBytes (hex n) = some n) :
    ConformingBlock (beaconResponse hex) 200 where
  response := by
    simp [hasMembers, beaconResponse, Json.isObject, Json.get?, WireType.admits]
  data := by
    show hasMembers _ _ (.object [("message", beaconMessage hex), ("signature", _)]) = true
    simp [hasMembers, beaconMessage, Json.isObject, Json.get?, WireType.admits, hhex]
  message := by
    have htexts : decimal "250" = some 250 ∧ decimal "3" = some 3 := by decide +kernel
    show hasMembers _ _ (beaconMessage hex) = true
    simp [hasMembers, blockFormat, beaconMessage, beaconBody, Json.isObject, Json.get?,
      WireType.admits, hhex, htexts]
  body := by
    show hasMembers _ _ (beaconBody hex) = true
    simp [hasMembers, bodyFormat, beaconBody, beaconPayload, Json.isObject, Json.get?,
      WireType.admits, hhex]
  eth1_data := by
    have htext : decimal "1" = some 1 := by decide +kernel
    show hasMembers _ _ (.object [("deposit_root", _), ("deposit_count", _), ("block_hash", _)]) =
      true
    simp [hasMembers, eth1DataFormat, Json.isObject, Json.get?, WireType.admits, hhex, htext]
  payload := hasMembers_beaconPayload hex hhex
  number := ⟨"200", rfl, by decide +kernel⟩

end

/-- So many bytes, all the same, in hex. -/
def hexText (bytes : Nat) : String := String.ofList ('0' :: 'x' :: List.replicate (2 * bytes) 'a')

theorem hexBytes_hexText (bytes : Nat) : hexBytes (hexText bytes) = some bytes := by
  have hchars : (hexText bytes).toList = '0' :: 'x' :: List.replicate (2 * bytes) 'a' :=
    String.toList_ofList
  have hdigit : (hexVal 'a').isSome = true := by decide
  simp [hexBytes, hchars, hdigit]

/-- The beacon source serves it. -/
def servedTrace : Trace Calls :=
  [⟨.rpc (.beaconFinalized "http://beacon"), .response 200 (.ok (beaconResponse hexText))⟩]

theorem servedTrace_served :
    ServedBlock (some "http://beacon") servedTrace "http://beacon" (beaconResponse hexText) 200 :=
  ⟨rfl, List.mem_singleton_self _, beaconResponse_conforms hexText hexBytes_hexText⟩

/-- It is not read, and there is no other provider. -/
theorem runs_servedTrace : (getFinalizedBlockNumber (some "http://beacon") []).Runs servedTrace
    (.error (.error .AllRpcsFailedForFinalizedBlock)) := by
  refine Act.runs_attempt_andThen.mpr ⟨_, _, [], rfl,
    runs_getFinalizedBlockFromBeacon.mpr ⟨_, rfl, rfl⟩, ?_⟩
  rw [readBeaconResponse_of_conforming (beaconResponse_conforms hexText hexBytes_hexText)]
  exact ⟨rfl, rfl⟩

end Deployment

open Deployment in
/-- While the beacon source is not in sync the second provider's number is used; once it serves
its block the resolution goes wrong. -/
theorem resolves_by_beacon_iff_unsynced :
    ResolvesByBeacon (some "http://beacon") ["http://el-1", "http://el-2", "http://el-3"]
      elFallback (.ok 200) ∧
    ¬ResolvesByBeacon (some "http://beacon") [] servedTrace
      (.error (.error .AllRpcsFailedForFinalizedBlock)) := by
  have hrun : (getFinalizedBlockNumber (some "http://beacon")
      ["http://el-1", "http://el-2", "http://el-3"]).Runs elFallback (.ok 200) := by
    refine Act.runs_attempt_andThen.mpr ⟨_, _, _, rfl,
      runs_getFinalizedBlockFromBeacon.mpr ⟨_, rfl, rfl⟩, ?_⟩
    exact ⟨_, _, rfl, _, _, rfl, rfl, rfl⟩
  constructor
  · apply (resolves_by_beacon_iff hrun).mpr
    rintro ⟨url, body, n, -, hserved, -⟩
    rcases List.mem_cons.mp hserved with heq | hserved
    · cases heq
    · simp at hserved
  · intro h
    exact (resolves_by_beacon_iff runs_servedTrace).mp h ⟨_, _, _, servedTrace_served⟩

open Deployment in
/-- The beacon node serves block 200 as it should, and all the same there is no number. -/
theorem beacon_block_refused :
    ¬ ∀ (bc_rpc : Option String) (el_rpcs : List String) (tr : Trace Calls)
      (result : Except (Exit BridgeValidatorError) Int),
      (getFinalizedBlockNumber bc_rpc el_rpcs).Runs tr result →
      ResolvesByBeacon bc_rpc el_rpcs tr result := by
  intro hclaim
  cases ((hclaim _ _ _ _ runs_servedTrace).beacon _ _ _ servedTrace_served).2.1

end BridgeValidator
