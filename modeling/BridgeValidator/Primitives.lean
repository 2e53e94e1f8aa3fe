import Mathlib.Data.List.Basic

/-!
# Bytes, fixed-width numbers, text and JSON

The value types the services exchange. Rust integers are `Nat`/`Int` with the
width written where it matters; `FixedBytes n` carries its length, so an
address or a hash of the wrong size cannot be built.
-/

namespace BridgeValidator

/-! ## Bytes and words -/

abbrev Bytes : Type := List UInt8

/-- alloy's `FixedBytes<N>`. -/
structure FixedBytes (n : Nat) where
  bytes : Bytes
  size_eq : bytes.length = n
deriving DecidableEq

abbrev Address : Type := FixedBytes 20
abbrev B256 : Type := FixedBytes 32
abbrev U256 : Type := BitVec 256

/-- `FixedBytes::repeat_byte`. -/
def FixedBytes.repeatByte (n : Nat) (b : UInt8) : FixedBytes n :=
  ⟨List.replicate n b, by simp⟩

def u64Max : Nat := 18446744073709551615
def i64Max : Int := 9223372036854775807
def i32Max : Int := 2147483647

/-- `n as i64` for a `u64`: two's complement reinterpretation. -/
def asI64 (n : Nat) : Int :=
  if (n : Int) ≤ i64Max then n else (n : Int) - 18446744073709551616

/-- `n as u64` for an `i64`. -/
def asU64 (n : Int) : Nat := (n % 18446744073709551616).toNat

theorem asU64_le (n : Int) : asU64 n ≤ u64Max := by
  unfold asU64 u64Max
  omega

theorem asI64_le_self (n : Nat) : asI64 n ≤ n := by
  unfold asI64
  split <;> omega

theorem asU64_le_self {n : Int} (h : 0 ≤ n) : (asU64 n : Int) ≤ n := by
  unfold asU64
  omega

/-- `u64::saturating_add`. -/
def saturatingAdd (a b : Nat) : Nat := min (a + b) u64Max

/-! ## Text -/

def hexDigit (n : Nat) : Char :=
  if n < 10 then Char.ofNat (48 + n) else Char.ofNat (87 + n)

/-- `hex::encode`: two lower-case digits a byte. -/
def hexEncode (bs : Bytes) : String :=
  String.ofList (bs.flatMap fun b => [hexDigit (b.toNat / 16), hexDigit (b.toNat % 16)])

/-- The two digits of a byte. -/
def hexPair (b : UInt8) : List Char := [hexDigit (b.toNat / 16), hexDigit (b.toNat % 16)]

theorem toList_hexEncode (bs : Bytes) : (hexEncode bs).toList = bs.flatMap hexPair := by
  simp only [hexEncode, String.toList_ofList]
  rfl

/-- `format!("{:?}", h)` of a fixed-size hash: `0x` and lower-case hex. -/
def FixedBytes.debug {n : Nat} (h : FixedBytes n) : String := "0x" ++ hexEncode h.bytes

/-- `str::to_ascii_lowercase`. -/
def toAsciiLowercase (s : String) : String := String.ofList (s.toList.map Char.toLower)

theorem toLower_hexDigit : ∀ n, n < 16 → (hexDigit n).toLower = hexDigit n := by decide

/-- A hash is printed in lower case. -/
theorem toAsciiLowercase_debug {n : Nat} (h : FixedBytes n) :
    toAsciiLowercase h.debug = h.debug := by
  have hpair : ∀ b : UInt8, (hexPair b).map Char.toLower = hexPair b := by
    intro b
    have hb : b.toNat < 256 := b.toNat_lt
    simp only [hexPair, List.map_cons, List.map_nil]
    rw [toLower_hexDigit _ (by omega), toLower_hexDigit _ (by omega)]
  have hdigits : (hexEncode h.bytes).toList.map Char.toLower = (hexEncode h.bytes).toList := by
    rw [toList_hexEncode, List.map_flatMap]
    simp only [hpair]
  rw [toAsciiLowercase, FixedBytes.debug, String.toList_append, List.map_append, hdigits,
    String.ofList_append, String.ofList_toList]
  rfl

/-- `str::eq_ignore_ascii_case`. -/
def eqIgnoreAsciiCase (a b : String) : Bool := toAsciiLowercase a == toAsciiLowercase b

theorem toLower_toLower (c : Char) : c.toLower.toLower = c.toLower := by
  delta Char.toLower
  grind

theorem eqIgnoreAsciiCase_toAsciiLowercase (a b : String) :
    eqIgnoreAsciiCase (toAsciiLowercase a) b = eqIgnoreAsciiCase a b := by
  have htwice : toAsciiLowercase (toAsciiLowercase a) = toAsciiLowercase a := by
    rw [toAsciiLowercase, toAsciiLowercase, String.toList_ofList, List.map_map]
    congr 2
    funext c
    exact toLower_toLower c
  rw [eqIgnoreAsciiCase, htwice, eqIgnoreAsciiCase]

/-- `s.trim_start_matches("0x")`: every leading copy goes. -/
def trimStart0x : List Char → List Char
  | '0' :: 'x' :: cs => trimStart0x cs
  | cs => cs

def hexVal (c : Char) : Option Nat :=
  if '0' ≤ c ∧ c ≤ '9' then some (c.toNat - 48)
  else if 'a' ≤ c ∧ c ≤ 'f' then some (c.toNat - 87)
  else if 'A' ≤ c ∧ c ≤ 'F' then some (c.toNat - 55)
  else none

/-- The value of a non-empty run of hex digits. -/
def hexDigits (cs : List Char) : Option Nat :=
  if cs = [] then none
  else cs.foldl (fun acc c => do return 16 * (← acc) + (← hexVal c)) (some 0)

/-- `i64::from_str_radix(s, 16)`: one optional sign, at least one digit, and
the value in range. -/
def i64FromStrRadix16 (cs : List Char) : Option Int :=
  match cs with
  | '+' :: ds => (hexDigits ds).bind fun n => if (n : Int) ≤ i64Max then some n else none
  | '-' :: ds => (hexDigits ds).bind fun n => if (n : Int) ≤ i64Max + 1 then some (-n) else none
  | ds => (hexDigits ds).bind fun n => if (n : Int) ≤ i64Max then some n else none

/-- A quantity as both resolvers read it. -/
def parseBlockNumber (s : String) : Option Int := i64FromStrRadix16 (trimStart0x s.toList)

/-! ## JSON -/

/-- A number as the parser keeps it: an integer, or anything else as text. -/
inductive JsonNumber where
  | int (n : Int)
  | float (text : String)
deriving DecidableEq, Repr

/-- `serde_json::Value`; an object keeps its members in document order. -/
inductive Json where
  | null
  | bool (b : Bool)
  | number (n : JsonNumber)
  | string (s : String)
  | array (xs : List Json)
  | object (members : List (String × Json))

namespace Json

/-- `value.get(key)`: of repeated keys the last one wins. -/
def get? (key : String) : Json → Option Json
  | .object members => (members.reverse.find? (fun m => m.1 == key)).map Prod.snd
  | _ => none

/-- `value[key]`: absence reads as `null`. -/
def index (v : Json) (key : String) : Json := (v.get? key).getD .null

def isNull : Json → Bool
  | .null => true
  | _ => false

def asStr : Json → Option String
  | .string s => some s
  | _ => none

end Json

/-! ## HTTP -/

/-- What `reqwest` hands back: no response, or a status with a body that may
fail to parse as JSON. -/
inductive HttpResponse where
  | transportError (reason : String)
  | response (status : Nat) (body : Except String Json)

/-- `StatusCode::is_success`. -/
def isSuccess (status : Nat) : Bool := 200 ≤ status && status < 300

end BridgeValidator
