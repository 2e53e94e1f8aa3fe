import BridgeValidator.Service.Safe

/-!
# What a safe probe tells

The four outcomes are documented one by one: a refusal of the tag, a legitimate
empty, a block, and an answer that says nothing. The code tells them apart by
indexing into the body, where an absent `result` reads as `null`, and by a parser
that takes more than quantities. So a body that is no JSON-RPC answer at all counts
as a legitimate empty, and a signed or doubly prefixed number as a block; all other
answers are classified as documented.
-/

namespace BridgeValidator

open Interaction

/-! ## Quantities -/

/-- A JSON-RPC quantity: `0x` and one or more hex digits. -/
def quantity (s : String) : Option Nat :=
  match s.toList with
  | '0' :: 'x' :: ds => hexDigits ds
  | _ => none

theorem hexDigits_foldl {cs : List Char} {acc : Option Nat}
    (h : (cs.foldl (fun acc c => do return 16 * (← acc) + (← hexVal c)) acc).isSome = true) :
    acc.isSome = true ∧ ∀ c ∈ cs, (hexVal c).isSome = true := by
  induction cs generalizing acc with
  | nil => exact ⟨h, fun _ hc => by cases hc⟩
  | cons c cs ih =>
      obtain ⟨hstep, hrest⟩ := ih h
      obtain ⟨v, hv⟩ := Option.isSome_iff_exists.mp hstep
      obtain ⟨a, ha, hv⟩ := Option.bind_eq_some_iff.mp hv
      obtain ⟨b, hb, -⟩ := Option.bind_eq_some_iff.mp hv
      refine ⟨by rw [ha]; rfl, ?_⟩
      intro c' hc'
      rcases List.mem_cons.mp hc' with rfl | hc'
      · rw [hb]
        rfl
      · exact hrest c' hc'

theorem hexVal_of_hexDigits {cs : List Char} {n : Nat} (h : hexDigits cs = some n) :
    ∀ c ∈ cs, (hexVal c).isSome = true := by
  unfold hexDigits at h
  split at h
  · cases h
  · exact (hexDigits_foldl (by rw [h]; rfl)).2

/-- Digits have no prefix to lose. -/
theorem trimStart0x_of_hexDigits {cs : List Char} {n : Nat} (h : hexDigits cs = some n) :
    trimStart0x cs = cs := by
  unfold trimStart0x
  split
  · rename_i rest
    have hx := hexVal_of_hexDigits h 'x' (List.mem_cons_of_mem _ List.mem_cons_self)
    exact absurd hx (by decide)
  · rfl

/-- Digits have no sign. -/
theorem i64FromStrRadix16_of_hexDigits {cs : List Char} {n : Nat} (h : hexDigits cs = some n) :
    i64FromStrRadix16 cs = if (n : Int) ≤ i64Max then some (n : Int) else none := by
  unfold i64FromStrRadix16
  split
  · have hsign := hexVal_of_hexDigits h '+' List.mem_cons_self
    exact absurd hsign (by decide)
  · have hsign := hexVal_of_hexDigits h '-' List.mem_cons_self
    exact absurd hsign (by decide)
  · rw [h]
    rfl

/-- A quantity is read as its value. -/
theorem parseBlockNumber_of_quantity {s : String} {n : Nat} (h : quantity s = some n) :
    parseBlockNumber s = if (n : Int) ≤ i64Max then some (n : Int) else none := by
  unfold quantity at h
  split at h
  · rename_i ds hs
    have htrim : trimStart0x s.toList = ds := by
      rw [hs, trimStart0x]
      exact trimStart0x_of_hexDigits h
    rw [parseBlockNumber, htrim]
    exact i64FromStrRadix16_of_hexDigits h
  · cases h

/-- A numeral that `from_str_radix` takes: at most one sign, digits, in range. -/
def IsNumeral (cs : List Char) : Prop :=
  ∃ sign ds n, cs = sign ++ ds ∧ hexDigits ds = some n ∧
    ((sign = [] ∨ sign = ['+']) ∧ (n : Int) ≤ i64Max ∨ sign = ['-'] ∧ (n : Int) ≤ i64Max + 1)

theorem i64FromStrRadix16_isSome_iff {cs : List Char} :
    (∃ n, i64FromStrRadix16 cs = some n) ↔ IsNumeral cs := by
  constructor
  · rintro ⟨v, hv⟩
    unfold i64FromStrRadix16 at hv
    split at hv
    · rename_i ds
      obtain ⟨n, hn, hv⟩ := Option.bind_eq_some_iff.mp hv
      split at hv
      · exact ⟨['+'], ds, n, rfl, hn, Or.inl ⟨Or.inr rfl, ‹_›⟩⟩
      · cases hv
    · rename_i ds
      obtain ⟨n, hn, hv⟩ := Option.bind_eq_some_iff.mp hv
      split at hv
      · exact ⟨['-'], ds, n, rfl, hn, Or.inr ⟨rfl, ‹_›⟩⟩
      · cases hv
    · obtain ⟨n, hn, hv⟩ := Option.bind_eq_some_iff.mp hv
      split at hv
      · exact ⟨[], cs, n, rfl, hn, Or.inl ⟨Or.inl rfl, ‹_›⟩⟩
      · cases hv
  · rintro ⟨sign, ds, n, rfl, hn, ⟨rfl | rfl, hle⟩ | ⟨rfl, hle⟩⟩
    · rw [List.nil_append, i64FromStrRadix16_of_hexDigits hn, if_pos hle]
      exact ⟨_, rfl⟩
    · refine ⟨n, ?_⟩
      simp only [List.cons_append, List.nil_append, i64FromStrRadix16, hn, Option.bind_some, hle,
        if_true]
    · refine ⟨-n, ?_⟩
      simp only [List.cons_append, List.nil_append, i64FromStrRadix16, hn, Option.bind_some, hle,
        if_true]

/-! ## The outcomes -/

namespace HttpResponse

/-- A success status and a JSON body without a non-null error. -/
def Serves (r : HttpResponse) (v : Json) : Prop :=
  ∃ status, r = .response status (.ok v) ∧ isSuccess status = true ∧ hasError v = false

def Refuses (r : HttpResponse) : Prop :=
  ∃ status v e, r = .response status (.ok v) ∧ isSuccess status = true ∧
    v.get? "error" = some e ∧ e.isNull = false

/-- The body is an object whose `result` is present and null. -/
def ServesNull (r : HttpResponse) : Prop := ∃ v, r.Serves v ∧ v.get? "result" = some .null

def ServesBlock (r : HttpResponse) (n : Int) : Prop :=
  ∃ v s q, r.Serves v ∧ (v.index "result").index "number" = .string s ∧
    quantity s = some q ∧ n = q ∧ n ≤ i64Max

end HttpResponse

/-- What an outcome is documented to say of the answer. -/
def SafeProbe.Documented (r : HttpResponse) : SafeProbe → Prop
  | .Unsupported => r.Refuses
  | .Empty => r.ServesNull
  | .Block n => r.ServesBlock n
  | .Unreachable => ¬ r.Refuses ∧ ¬ r.ServesNull ∧ ∀ n, ¬ r.ServesBlock n

/-- The answer is none of those the code is too lenient with: the body has a `result`,
and its number, if it is a text, is a quantity or no numeral at all. -/
def HttpResponse.PlainlyRead (r : HttpResponse) : Prop :=
  ∀ v, r.Serves v → (v.get? "result").isSome = true ∧
    ∀ s, (v.index "result").index "number" = .string s → quantity s = none →
      ¬ IsNumeral (trimStart0x s.toList)

variable {r : HttpResponse} {v v' : Json}

theorem hasError_iff : hasError v = true ↔ ∃ e, v.get? "error" = some e ∧ e.isNull = false := by
  unfold hasError
  cases v.get? "error" with
  | none =>
      constructor
      · intro h
        cases h
      · rintro ⟨e, he, -⟩
        cases he
  | some e =>
      simp only [Bool.not_eq_eq_eq_not, Bool.not_true, Option.some.injEq]
      constructor
      · intro h
        exact ⟨e, rfl, h⟩
      · rintro ⟨e, rfl, h⟩
        exact h

namespace HttpResponse

theorem Serves.unique (h : r.Serves v) (h' : r.Serves v') : v = v' := by
  obtain ⟨status, rfl, -, -⟩ := h
  obtain ⟨status', heq, -, -⟩ := h'
  cases heq
  rfl

theorem Serves.not_refuses (h : r.Serves v) : ¬ r.Refuses := by
  rintro ⟨status', v', e, rfl, -, he, hnull⟩
  obtain ⟨status, heq, -, herror⟩ := h
  cases heq
  rw [hasError_iff.mpr ⟨e, he, hnull⟩] at herror
  cases herror

theorem ServesBlock.not_servesNull {n : Int} (h : r.ServesBlock n) : ¬ r.ServesNull := by
  rintro ⟨v', hv', hnull⟩
  obtain ⟨v, s, q, hv, hs, -⟩ := h
  obtain rfl := hv.unique hv'
  rw [Json.index, Json.index, hnull] at hs
  cases hs

theorem ServesBlock.unique {n n' : Int} (h : r.ServesBlock n) (h' : r.ServesBlock n') :
    n = n' := by
  obtain ⟨v, s, q, hv, hs, hq, rfl, -⟩ := h
  obtain ⟨v', s', q', hv', hs', hq', rfl, -⟩ := h'
  obtain rfl := hv.unique hv'
  obtain rfl : s = s' := Json.string.inj (hs.symm.trans hs')
  rw [hq] at hq'
  rw [Option.some.inj hq']

end HttpResponse

/-- The documented outcomes exclude each other. -/
theorem SafeProbe.Documented.unique {p p' : SafeProbe} (h : p.Documented r)
    (h' : p'.Documented r) : p = p' := by
  have hserved : ∀ {n}, r.ServesBlock n → ¬ r.Refuses := by
    rintro n ⟨v, _, _, hv, -⟩
    exact hv.not_refuses
  have hnull : r.ServesNull → ¬ r.Refuses := by
    rintro ⟨v, hv, -⟩
    exact hv.not_refuses
  cases p with
  | Block n =>
      cases p' with
      | Block n' => rw [HttpResponse.ServesBlock.unique h h']
      | Empty => exact absurd h' (HttpResponse.ServesBlock.not_servesNull h)
      | Unsupported => exact absurd h' (hserved h)
      | Unreachable => exact absurd h (h'.2.2 n)
  | Empty =>
      cases p' with
      | Block n' => exact absurd h (HttpResponse.ServesBlock.not_servesNull h')
      | Empty => rfl
      | Unsupported => exact absurd h' (hnull h)
      | Unreachable => exact absurd h h'.2.1
  | Unsupported =>
      cases p' with
      | Block n' => exact absurd h (hserved h')
      | Empty => exact absurd h (hnull h')
      | Unsupported => rfl
      | Unreachable => exact absurd h h'.1
  | Unreachable =>
      cases p' with
      | Block n' => exact absurd h' (h.2.2 n')
      | Empty => exact absurd h' h.2.1
      | Unsupported => exact absurd h' h.1
      | Unreachable => rfl

/-! ## What the code makes of them -/

/-- The reading of a body that is served. -/
def readServed (v : Json) : SafeProbe :=
  if (v.index "result").isNull then .Empty
  else match ((v.index "result").index "number").asStr with
    | none => .Unreachable
    | some s => match parseBlockNumber s with
      | none => .Unreachable
      | some n => .Block n

theorem readSafeProbe_of_serves (h : r.Serves v) : readSafeProbe r = readServed v := by
  obtain ⟨status, rfl, hstatus, herror⟩ := h
  simp only [readSafeProbe, hstatus, herror, if_true, Bool.false_eq_true, if_false]
  rfl

theorem readSafeProbe_of_refuses (h : r.Refuses) : readSafeProbe r = .Unsupported := by
  obtain ⟨status, v, e, rfl, hstatus, he, hnull⟩ := h
  simp only [readSafeProbe, hstatus, hasError_iff.mpr ⟨e, he, hnull⟩, if_true]

/-- What neither refuses nor serves a body says nothing. -/
theorem readSafeProbe_of_neither (hrefuses : ¬ r.Refuses) (hserves : ∀ v, ¬ r.Serves v) :
    readSafeProbe r = .Unreachable := by
  cases r with
  | transportError e => rfl
  | response status body =>
      unfold readSafeProbe
      dsimp only
      split
      · rename_i hstatus
        cases body with
        | error e => rfl
        | ok v =>
            cases herror : hasError v with
            | false => exact absurd ⟨status, rfl, hstatus, herror⟩ (hserves v)
            | true =>
                obtain ⟨e, he, hnull⟩ := hasError_iff.mp herror
                exact absurd ⟨status, v, e, rfl, hstatus, he, hnull⟩ hrefuses
      · rfl

theorem Json.isNull_iff {v : Json} : v.isNull = true ↔ v = .null := by
  cases v <;> simp [Json.isNull]

theorem Json.asStr_eq_some {v : Json} {s : String} : v.asStr = some s ↔ v = .string s := by
  cases v <;> simp [Json.asStr]

/-- A body with a `result` and no merely lenient number is read as documented. -/
theorem documented_readServed (hv : r.Serves v) (hplain : r.PlainlyRead) :
    (readServed v).Documented r := by
  obtain ⟨hresult, hnumber⟩ := hplain v hv
  obtain ⟨result, hresult⟩ := Option.isSome_iff_exists.mp hresult
  have hindex : v.index "result" = result := by rw [Json.index, hresult, Option.getD_some]
  -- outside of null and blocks nothing else is documented
  have hother : result ≠ .null → (∀ n, ¬ r.ServesBlock n) →
      SafeProbe.Unreachable.Documented r := by
    intro hne hblock
    refine ⟨hv.not_refuses, ?_, hblock⟩
    rintro ⟨v', hv', hnull⟩
    obtain rfl := hv.unique hv'
    exact hne (Option.some.inj (hresult.symm.trans hnull))
  unfold readServed
  rw [hindex] at hnumber ⊢
  split
  · rename_i hnull
    rw [Json.isNull_iff] at hnull
    exact ⟨v, hv, hresult.trans (congrArg some hnull)⟩
  · rename_i hnull
    rw [Json.isNull_iff] at hnull
    split
    · rename_i hstr
      apply hother hnull
      rintro n ⟨v', s, q, hv', hs, -⟩
      obtain rfl := hv.unique hv'
      rw [hindex] at hs
      rw [Json.asStr_eq_some.mpr hs] at hstr
      cases hstr
    · rename_i s hstr
      rw [Json.asStr_eq_some] at hstr
      cases hq : quantity s with
      | some q =>
          rw [parseBlockNumber_of_quantity hq]
          by_cases hle : (q : Int) ≤ i64Max
          · rw [if_pos hle]
            exact ⟨v, s, q, hv, by rw [hindex, hstr], hq, rfl, hle⟩
          · rw [if_neg hle]
            apply hother hnull
            rintro n ⟨v', s', q', hv', hs', hq', rfl, hle'⟩
            obtain rfl := hv.unique hv'
            rw [hindex, hstr] at hs'
            obtain rfl := Json.string.inj hs'
            obtain rfl := Option.some.inj (hq.symm.trans hq')
            exact hle hle'
      | none =>
          have hnone : parseBlockNumber s = none := by
            cases hparse : parseBlockNumber s with
            | none => rfl
            | some n =>
                have hnumeral := i64FromStrRadix16_isSome_iff.mp ⟨n, hparse⟩
                exact absurd hnumeral (hnumber s hstr hq)
          rw [hnone]
          apply hother hnull
          rintro n ⟨v', s', q', hv', hs', hq', -⟩
          obtain rfl := hv.unique hv'
          rw [hindex, hstr] at hs'
          obtain rfl := Json.string.inj hs'
          cases hq.symm.trans hq'

theorem documented_iff_plainlyRead : (readSafeProbe r).Documented r ↔ r.PlainlyRead := by
  constructor
  · intro h v hv
    rw [readSafeProbe_of_serves hv] at h
    constructor
    · -- an absent result is read as a legitimate empty
      rw [Option.isSome_iff_ne_none]
      intro hnone
      have hempty : readServed v = .Empty := by
        rw [readServed, Json.index, hnone]
        rfl
      rw [hempty] at h
      obtain ⟨v', hv', hnull⟩ := h
      obtain rfl := hv.unique hv'
      cases hnone.symm.trans hnull
    · -- a numeral that is no quantity is read as a block
      intro s hs hq hnumeral
      obtain ⟨n, hn⟩ := i64FromStrRadix16_isSome_iff.mpr hnumeral
      have hresult : (v.index "result").isNull = false := by
        rw [Bool.eq_false_iff]
        intro hnull
        rw [Json.isNull_iff.mp hnull] at hs
        cases hs
      have hblock : readServed v = .Block n := by
        have hparse : parseBlockNumber s = some n := hn
        simp only [readServed, hresult, Bool.false_eq_true, if_false, hs, Json.asStr, hparse]
      rw [hblock] at h
      obtain ⟨v', s', q, hv', hs', hq', -⟩ := h
      obtain rfl := hv.unique hv'
      obtain rfl := Json.string.inj (hs.symm.trans hs')
      cases hq.symm.trans hq'
  · intro hplain
    by_cases hrefuses : r.Refuses
    · rw [readSafeProbe_of_refuses hrefuses]
      exact hrefuses
    · by_cases hserves : ∃ v, r.Serves v
      · obtain ⟨v, hv⟩ := hserves
        rw [readSafeProbe_of_serves hv]
        exact documented_readServed hv hplain
      · rw [not_exists] at hserves
        rw [readSafeProbe_of_neither hrefuses hserves]
        refine ⟨hrefuses, ?_, ?_⟩
        · rintro ⟨v, hv, -⟩
          exact hserves v hv
        · rintro n ⟨v, _, _, hv, -⟩
          exact hserves v hv

/-- The probe of one provider returns `p` when this is its answer. -/
def ProbeReturns (el_rpc : String) (r : HttpResponse) (p : SafeProbe) : Prop :=
  (probeSafeBlock el_rpc).Runs [⟨.rpc (.ethGetBlockByNumber el_rpc .safe), r⟩] (.ok p)

theorem probeReturns_iff {el_rpc : String} {p : SafeProbe} :
    ProbeReturns el_rpc r p ↔ readSafeProbe r = p := by
  constructor
  · rintro ⟨_, _, heq, -, hret⟩
    cases heq
    exact Except.ok.inj hret
  · rintro rfl
    exact ⟨r, [], rfl, rfl, rfl⟩

/-- **A probe is classified as documented** exactly when its body, if one is served, has
a `result` and no number that only a lenient reader takes. -/
theorem safe_probe_documented_iff (el_rpc : String) (r : HttpResponse) :
    (∀ p, ProbeReturns el_rpc r p ↔ p.Documented r) ↔ r.PlainlyRead := by
  rw [← documented_iff_plainlyRead]
  constructor
  · intro h
    exact (h _).mp (probeReturns_iff.mpr rfl)
  · intro h p
    rw [probeReturns_iff]
    constructor
    · rintro rfl
      exact h
    · intro hp
      exact h.unique hp

/-- A proxy's `{}` counts as a provider that has no safe block yet. -/
theorem safe_probe_of_empty_object :
    ¬ ∀ (el_rpc : String) (r : HttpResponse) (p : SafeProbe),
      ProbeReturns el_rpc r p ↔ p.Documented r := by
  intro hclaim
  have hreturns : ProbeReturns "http://el" (.response 200 (.ok (.object []))) .Empty :=
    probeReturns_iff.mpr (by decide)
  obtain ⟨v, ⟨status, heq, -⟩, hnull⟩ := (hclaim _ _ _).mp hreturns
  cases heq
  cases hnull

/-- Of the numbers, a sign behind the prefix is enough. -/
example : readSafeProbe (.response 200 (.ok (.object
    [("result", .object [("number", .string "0x-5")])]))) = .Block (-5) := by decide

/-! ## Lookups by number -/

/-- The answer gives this hash: a success status, and a body without an error whose
`result.hash` is the text. -/
def HttpResponse.GivesHash (r : HttpResponse) (hash : String) : Prop :=
  ∃ status v result, r = .response status (.ok v) ∧ 200 ≤ status ∧ status < 300 ∧
    (∀ e, v.get? "error" = some e → e = .null) ∧ v.get? "result" = some result ∧
    result.get? "hash" = some (.string hash)

theorem hasError_eq_false : hasError v = false ↔ ∀ e, v.get? "error" = some e → e = .null := by
  rw [← Bool.not_eq_true, hasError_iff]
  constructor
  · intro h e he
    by_contra hne
    refine h ⟨e, he, ?_⟩
    rw [← Bool.not_eq_true, Json.isNull_iff]
    exact hne
  · rintro h ⟨e, he, hnull⟩
    rw [h e he] at hnull
    cases hnull

theorem Json.index_eq_string {key s : String} :
    v.index key = .string s ↔ v.get? key = some (.string s) := by
  unfold Json.index
  cases v.get? key with
  | none =>
      constructor
      · intro h
        cases h
      · intro h
        cases h
  | some w => simp

/-- What a `get` finds below `result` is found in the result that is there. -/
theorem Json.get?_index {key key' : String} {w : Json} :
    (v.index key).get? key' = some w ↔
      ∃ result, v.get? key = some result ∧ result.get? key' = some w := by
  unfold Json.index
  cases v.get? key with
  | none =>
      constructor
      · intro h
        cases h
      · rintro ⟨_, h, -⟩
        cases h
  | some result => simp

/-- A lookup by number reads the hash that the answer gives, in lower case, and no
hash where none is given. -/
theorem readHashAnswer_eq_hash {h : String} :
    readHashAnswer r = .hash h ↔ ∃ hash, r.GivesHash hash ∧ h = toAsciiLowercase hash := by
  constructor
  · intro hread
    unfold readHashAnswer at hread
    split at hread
    · cases hread
    · rename_i status body
      split at hread
      · -- a success, then a body, then no error in it, then a text for the hash
        rename_i hstatus
        rw [isSuccess, Bool.and_eq_true, decide_eq_true_eq, decide_eq_true_eq] at hstatus
        split at hread
        · cases hread
        · rename_i v
          split at hread
          · cases hread
          · rename_i herror
            rw [Bool.not_eq_true, hasError_eq_false] at herror
            split at hread
            · cases hread
            · rename_i hash hhash
              rw [Json.asStr_eq_some, Json.index_eq_string, Json.get?_index] at hhash
              obtain ⟨result, hresult, hhash⟩ := hhash
              refine ⟨hash, ?_, (HashAnswer.hash.inj hread).symm⟩
              exact ⟨status, v, result, rfl, hstatus.1, hstatus.2, herror, hresult, hhash⟩
      · cases hread
  · rintro ⟨hash, ⟨status, v, result, rfl, hge, hlt, herror, hresult, hhash⟩, rfl⟩
    have hstatus : isSuccess status = true := by
      simp [isSuccess, hge, hlt]
    have htext : ((v.index "result").index "hash").asStr = some hash := by
      rw [Json.asStr_eq_some, Json.index_eq_string, Json.get?_index]
      exact ⟨result, hresult, hhash⟩
    simp only [readHashAnswer, hstatus, hasError_eq_false.mpr herror, htext, if_true,
      Bool.false_eq_true, if_false]

end BridgeValidator
