import BridgeValidator.Framework.Text
import BridgeValidator.Rounds
import BridgeValidator.XdaiMessage

/-!
# Configuration from the environment

`Config::from_env` reads twenty variables. Three kinds can stop it: the two RPC lists,
the addresses and the modes. A list is read piece by piece, a number that makes no sense
is its default, and whatever is loaded can be written down and loaded again.
-/

namespace BridgeValidator

open Interaction

/-! ## Text and numbers as they are read -/

/-- `char::is_whitespace`: the property `White_Space`. -/
def isWhitespace (c : Char) : Bool :=
  let n := c.toNat
  (9 ≤ n && n ≤ 13) || n == 0x20 || n == 0x85 || n == 0xa0 || n == 0x1680 ||
    (0x2000 ≤ n && n ≤ 0x200a) || n == 0x2028 || n == 0x2029 || n == 0x202f || n == 0x205f ||
    n == 0x3000

/-- `str::trim`. -/
def trim (s : String) : String := String.ofList (trimBy isWhitespace s.toList)

/-- The value of a non-empty run of decimal digits. -/
def decimalDigits (cs : List Char) : Option Nat :=
  if cs ≠ [] ∧ cs.all Char.isDigit = true then some (Nat.ofDigitChars 10 cs 0) else none

/-- A numeral without its plus sign. -/
def unsigned : List Char → List Char
  | '+' :: ds => ds
  | ds => ds

/-- `str::parse::<u64>`: at most a plus sign, at least one digit, and the value in range. -/
def parseU64 (s : String) : Option { n : Nat // n ≤ u64Max } :=
  (decimalDigits (unsigned s.toList)).bind fun n => if h : n ≤ u64Max then some ⟨n, h⟩ else none

/-! ## Variables -/

/-- `env::VarError`, with the debug form of a text that is not Unicode. -/
inductive VarError where
  | notPresent
  | notUnicode (debug : String)

def VarError.text : VarError → String
  | .notPresent => "environment variable not found"
  | .notUnicode debug => "environment variable was not valid unicode: " ++ debug

/-- `env::var`. -/
abbrev Environment : Type := String → Except VarError String

/-- `env::var(name).unwrap_or_else(|_| default)`. -/
def Environment.textOr (env : Environment) (name default : String) : String :=
  match env name with
  | .ok value => value
  | .error _ => default

namespace BlockProcessingMode

def asStr : BlockProcessingMode → String
  | .fcr => "fcr"
  | .blockFinality => "block-finality"

/-- An empty value is the same as none, an unknown one is refused. -/
def parse (var value : String) (default : BlockProcessingMode) :
    Except String BlockProcessingMode :=
  let other := toAsciiLowercase (trim value)
  if other = "" then .ok default
  else if other = "fcr" then .ok .fcr
  else if other = "block-finality" ∨ other = "block_finality" then .ok .blockFinality
  else .error s!"Invalid {var}: '{other}' (expected 'fcr' or 'block-finality')"

theorem parse_eq_error {var value e other : String} {default : BlockProcessingMode}
    (h : parse var value default = .error e) (hother : toAsciiLowercase (trim value) = other) :
    other ∉ ["", "fcr", "block-finality", "block_finality"] ∧
      e = s!"Invalid {var}: '{other}' (expected 'fcr' or 'block-finality')" := by
  subst hother
  unfold parse at h
  simp only at h
  split at h
  · cases h
  split at h
  · cases h
  split at h
  · cases h
  rename_i hblank hfcr hfinality
  refine ⟨?_, (Except.error.inj h).symm⟩
  simp only [List.mem_cons, List.not_mem_nil, or_false, not_or] at hfinality ⊢
  exact ⟨hblank, hfcr, hfinality.1, hfinality.2⟩

theorem known_of_parse {var value : String} {default mode : BlockProcessingMode}
    (h : parse var value default = .ok mode) :
    toAsciiLowercase (trim value) ∈ ["", "fcr", "block-finality", "block_finality"] := by
  unfold parse at h
  generalize toAsciiLowercase (trim value) = other at h ⊢
  simp only [List.mem_cons, List.not_mem_nil, or_false] at h ⊢
  by_contra hunknown
  simp only [not_or] at hunknown
  obtain ⟨hblank, hfcr, hdash, hunderscore⟩ := hunknown
  rw [if_neg hblank, if_neg hfcr, if_neg (not_or.mpr ⟨hdash, hunderscore⟩)] at h
  cases h

def fromEnv (env : Environment) (var : String) (default : BlockProcessingMode) :
    Except String BlockProcessingMode :=
  match env var with
  | .ok value => parse var value default
  | .error _ => .ok default

end BlockProcessingMode

/-- What `positive_u64_from_env` may return. -/
abbrev Knob : Type := { n : Nat // 1 ≤ n ∧ n ≤ u64Max }

def defaultFcrCheckIntervalSecs : Knob := ⟨30, by decide⟩
def defaultPollIntervalSecs : Knob := ⟨10, by decide⟩
def defaultMaxRetryCount : Knob := ⟨5, by decide⟩
def defaultMaxBlockRange : Knob := ⟨2000, by decide⟩

/-- All that is loaded. The two intervals only time the loops. -/
structure Settings where
  config : Config
  poll_interval_secs : Knob
  fcr_check_interval_secs : Knob

namespace Config

/-- Split at commas, trim, leave out what is empty. -/
def parseRpcUrls (value : String) : List String :=
  (pieces isWhitespace ',' value.toList).map String.ofList

/-- Unset, empty, unreadable and zero are all the default. -/
def positiveU64FromEnv (env : Environment) (name : String) (default : Knob) : Knob :=
  match env name with
  | .error _ => default
  | .ok raw =>
      let trimmed := trim raw
      if trimmed = "" then default
      else match parseU64 trimmed with
        | none => default
        | some value => if h : value.1 = 0 then default else ⟨value.1, by omega, value.2⟩

section

variable (env : Environment)

def rpcUrlsFromEnv (name : String) : Except String (List String) :=
  match env name with
  | .ok value => .ok (parseRpcUrls value)
  | .error err => .error s!"Error reading {name}: {err.text}"

def beaconUrlsFromEnv (name : String) : List String :=
  match env name with
  | .ok value => parseRpcUrls value
  | .error _ => []

def atLeastOne (name : String) (urls : List String) :
    Except String { urls : List String // urls ≠ [] } :=
  if h : urls = [] then .error s!"{name} must contain at least one valid URL" else .ok ⟨urls, h⟩

variable (parseAddress : String → Except String Address)

def addressFromEnv (name default : String) : Except String Address :=
  match parseAddress (env.textOr name default) with
  | .ok address => .ok address
  | .error err => .error s!"Error parsing {name}: {err}"

/-- The two lists are read before either is looked at; after that the fields come in
order. -/
def fromEnv : Except String Settings := do
  let eth_rpc ← rpcUrlsFromEnv env "ETH_RPC"
  let gc_rpc ← rpcUrlsFromEnv env "GC_RPC"
  let ⟨eth_rpc, eth_rpc_ne⟩ ← atLeastOne "ETH_RPC" eth_rpc
  let ⟨gc_rpc, gc_rpc_ne⟩ ← atLeastOne "GC_RPC" gc_rpc
  let eth_amb_bridge_address ← addressFromEnv env parseAddress "ETH_AMB_BRIDGE_ADDRESS"
    "0x4C36d2919e407f0Cc2Ee3c993ccF8ac26d9CE64e"
  let gc_amb_bridge_address ← addressFromEnv env parseAddress "GC_AMB_BRIDGE_ADDRESS"
    "0x75Df5AF045d91108662D8080fD1FEFAd6aA0bb59"
  let eth_xdai_bridge_address ← addressFromEnv env parseAddress "ETH_XDAI_BRIDGE_ADDRESS"
    "0x4aa42145Aa6Ebf72e164C9bBC74fbD3788045016"
  let gc_xdai_bridge_address ← addressFromEnv env parseAddress "GC_XDAI_BRIDGE_ADDRESS"
    "0x7301CFA0e1756B71869E93d4e4Dca5c7d0eb0AA6"
  let xdai_bridge_helper_address ← addressFromEnv env parseAddress "XDAI_BRIDGE_HELPER_ADDRESS"
    "0xe30269bc61E677cD60aD163a221e464B7022fbf5"
  let amb_bridge_helper_address ← addressFromEnv env parseAddress "AMB_BRIDGE_HELPER_ADDRESS"
    "0x7d94ece17e81355326e3359115D4B02411825EdD"
  let max_retry_count := positiveU64FromEnv env "MAX_RETRY_COUNT" defaultMaxRetryCount
  let max_block_range := positiveU64FromEnv env "MAX_BLOCK_RANGE" defaultMaxBlockRange
  let eth_block_processing_mode ← BlockProcessingMode.fromEnv env "ETH_BLOCK_PROCESSING_MODE" .fcr
  let gc_block_processing_mode ←
    BlockProcessingMode.fromEnv env "GC_BLOCK_PROCESSING_MODE" .blockFinality
  return {
    config := {
      eth_rpc, gc_rpc, eth_rpc_ne, gc_rpc_ne
      eth_bc_rpc := beaconUrlsFromEnv env "ETH_BC_RPC"
      gc_bc_rpc := beaconUrlsFromEnv env "GC_BC_RPC"
      xdai_validator_private_key := (env "XDAI_VALIDATOR_PRIV_KEY").toOption
      amb_validator_private_key := (env "AMB_VALIDATOR_PRIV_KEY").toOption
      eth_amb_bridge_address, gc_amb_bridge_address
      eth_xdai_bridge_address, gc_xdai_bridge_address
      xdai_execute_message_on_foreign := env.textOr "XDAI_EXECUTE_MESSAGE_ON_FOREIGN" "false"
      amb_execute_message_on_foreign := env.textOr "AMB_EXECUTE_MESSAGE_ON_FOREIGN" "false"
      xdai_bridge_helper_address, amb_bridge_helper_address
      max_retry_count := max_retry_count
      max_retry_count_pos := max_retry_count.2.1
      max_retry_count_le := max_retry_count.2.2
      max_block_range := max_block_range
      max_block_range_pos := max_block_range.2.1
      max_block_range_le := max_block_range.2.2
      eth_block_processing_mode, gc_block_processing_mode }
    poll_interval_secs := positiveU64FromEnv env "POLL_INTERVAL_SECS" defaultPollIntervalSecs
    fcr_check_interval_secs :=
      positiveU64FromEnv env "FCR_CHECK_INTERVAL_SECS" defaultFcrCheckIntervalSecs }

end

/-! ## Field by field -/

section

variable {ε α β : Type} {r : Except ε α} {f : α → Except ε β}

theorem bind_eq_ok {b : β} : (r >>= f) = .ok b ↔ ∃ a, r = .ok a ∧ f a = .ok b := by
  cases r with
  | ok a =>
      constructor
      · intro h
        exact ⟨a, rfl, h⟩
      · rintro ⟨_, ⟨⟩, h⟩
        exact h
  | error e =>
      constructor
      · intro h
        cases h
      · rintro ⟨_, ⟨⟩, -⟩

theorem bind_eq_error {e : ε} :
    (r >>= f) = .error e ↔ r = .error e ∨ ∃ a, r = .ok a ∧ f a = .error e := by
  cases r with
  | ok a =>
      constructor
      · intro h
        exact Or.inr ⟨a, rfl, h⟩
      · rintro (h | ⟨_, ⟨⟩, h⟩)
        · cases h
        · exact h
  | error e' =>
      constructor
      · intro h
        cases h
        exact Or.inl rfl
      · rintro (h | ⟨_, ⟨⟩, -⟩)
        cases h
        rfl

end

/-- Each field of the settings is what is read of its variable. -/
structure LoadedFrom (env : Environment) (parseAddress : String → Except String Address)
    (s : Settings) : Prop where
  eth_rpc : rpcUrlsFromEnv env "ETH_RPC" = .ok s.config.eth_rpc
  gc_rpc : rpcUrlsFromEnv env "GC_RPC" = .ok s.config.gc_rpc
  eth_bc_rpc : beaconUrlsFromEnv env "ETH_BC_RPC" = s.config.eth_bc_rpc
  gc_bc_rpc : beaconUrlsFromEnv env "GC_BC_RPC" = s.config.gc_bc_rpc
  xdai_validator_private_key :
    (env "XDAI_VALIDATOR_PRIV_KEY").toOption = s.config.xdai_validator_private_key
  amb_validator_private_key :
    (env "AMB_VALIDATOR_PRIV_KEY").toOption = s.config.amb_validator_private_key
  eth_amb_bridge_address : addressFromEnv env parseAddress "ETH_AMB_BRIDGE_ADDRESS"
    "0x4C36d2919e407f0Cc2Ee3c993ccF8ac26d9CE64e" = .ok s.config.eth_amb_bridge_address
  gc_amb_bridge_address : addressFromEnv env parseAddress "GC_AMB_BRIDGE_ADDRESS"
    "0x75Df5AF045d91108662D8080fD1FEFAd6aA0bb59" = .ok s.config.gc_amb_bridge_address
  eth_xdai_bridge_address : addressFromEnv env parseAddress "ETH_XDAI_BRIDGE_ADDRESS"
    "0x4aa42145Aa6Ebf72e164C9bBC74fbD3788045016" = .ok s.config.eth_xdai_bridge_address
  gc_xdai_bridge_address : addressFromEnv env parseAddress "GC_XDAI_BRIDGE_ADDRESS"
    "0x7301CFA0e1756B71869E93d4e4Dca5c7d0eb0AA6" = .ok s.config.gc_xdai_bridge_address
  xdai_bridge_helper_address : addressFromEnv env parseAddress "XDAI_BRIDGE_HELPER_ADDRESS"
    "0xe30269bc61E677cD60aD163a221e464B7022fbf5" = .ok s.config.xdai_bridge_helper_address
  amb_bridge_helper_address : addressFromEnv env parseAddress "AMB_BRIDGE_HELPER_ADDRESS"
    "0x7d94ece17e81355326e3359115D4B02411825EdD" = .ok s.config.amb_bridge_helper_address
  xdai_execute_message_on_foreign : env.textOr "XDAI_EXECUTE_MESSAGE_ON_FOREIGN" "false" =
    s.config.xdai_execute_message_on_foreign
  amb_execute_message_on_foreign : env.textOr "AMB_EXECUTE_MESSAGE_ON_FOREIGN" "false" =
    s.config.amb_execute_message_on_foreign
  max_retry_count : (positiveU64FromEnv env "MAX_RETRY_COUNT" defaultMaxRetryCount).1 =
    s.config.max_retry_count
  max_block_range : (positiveU64FromEnv env "MAX_BLOCK_RANGE" defaultMaxBlockRange).1 =
    s.config.max_block_range
  eth_block_processing_mode : BlockProcessingMode.fromEnv env "ETH_BLOCK_PROCESSING_MODE" .fcr =
    .ok s.config.eth_block_processing_mode
  gc_block_processing_mode : BlockProcessingMode.fromEnv env "GC_BLOCK_PROCESSING_MODE"
    .blockFinality = .ok s.config.gc_block_processing_mode
  poll_interval_secs : positiveU64FromEnv env "POLL_INTERVAL_SECS" defaultPollIntervalSecs =
    s.poll_interval_secs
  fcr_check_interval_secs : positiveU64FromEnv env "FCR_CHECK_INTERVAL_SECS"
    defaultFcrCheckIntervalSecs = s.fcr_check_interval_secs

section

variable {env : Environment} {parseAddress : String → Except String Address} {s : Settings}

theorem atLeastOne_eq_ok {name : String} {urls : List String}
    {r : { urls : List String // urls ≠ [] }} : atLeastOne name urls = .ok r ↔ r.1 = urls := by
  unfold atLeastOne
  split
  · rename_i hnone
    constructor
    · intro h
      cases h
    · intro h
      exact absurd (h.trans hnone) r.2
  · constructor
    · intro h
      cases h
      rfl
    · rintro rfl
      rfl

/-- **Loading is reading each variable for itself.** -/
theorem fromEnv_eq_ok : fromEnv env parseAddress = .ok s ↔ LoadedFrom env parseAddress s := by
  constructor
  · intro h
    simp only [fromEnv, bind_eq_ok, atLeastOne_eq_ok] at h
    obtain ⟨_, heth, _, hgc, ⟨_, _⟩, rfl, ⟨_, _⟩, rfl, _, heth_amb, _, hgc_amb, _, heth_xdai, _,
      hgc_xdai, _, hxdai, _, hamb, _, heth_mode, _, hgc_mode, hs⟩ := h
    obtain rfl := Except.ok.inj hs
    exact ⟨heth, hgc, rfl, rfl, rfl, rfl, heth_amb, hgc_amb, heth_xdai, hgc_xdai, hxdai, hamb, rfl,
      rfl, rfl, rfl, heth_mode, hgc_mode, rfl, rfl⟩
  · intro h
    simp only [fromEnv, bind_eq_ok, atLeastOne_eq_ok]
    refine ⟨_, h.eth_rpc, _, h.gc_rpc, ⟨_, s.config.eth_rpc_ne⟩, rfl, ⟨_, s.config.gc_rpc_ne⟩, rfl,
      _, h.eth_amb_bridge_address, _, h.gc_amb_bridge_address, _, h.eth_xdai_bridge_address,
      _, h.gc_xdai_bridge_address, _, h.xdai_bridge_helper_address,
      _, h.amb_bridge_helper_address, _, h.eth_block_processing_mode,
      _, h.gc_block_processing_mode, ?_⟩
    simp only [h.eth_bc_rpc, h.gc_bc_rpc, h.xdai_validator_private_key,
      h.amb_validator_private_key, h.xdai_execute_message_on_foreign,
      h.amb_execute_message_on_foreign, h.max_retry_count, h.max_block_range,
      h.poll_interval_secs, h.fcr_check_interval_secs]
    rfl

end

/-! ## What is refused -/

/-- What is asked of a variable that can stop the start. -/
inductive Requirement where
  | urls
  | address (default : String)
  | mode

/-- The variable is what it has to be. -/
def Requirement.Accepts (env : Environment) (parseAddress : String → Except String Address)
    (name : String) : Requirement → Prop
  | .urls => ∃ text, env name = .ok text ∧ parseRpcUrls text ≠ []
  | .address default => ∃ address, parseAddress (env.textOr name default) = .ok address
  | .mode => ∀ text, env name = .ok text →
      toAsciiLowercase (trim text) ∈ ["", "fcr", "block-finality", "block_finality"]

/-- The variables that can stop the start. -/
def requirements : List (String × Requirement) := [
  ("ETH_RPC", .urls),
  ("GC_RPC", .urls),
  ("ETH_AMB_BRIDGE_ADDRESS", .address "0x4C36d2919e407f0Cc2Ee3c993ccF8ac26d9CE64e"),
  ("GC_AMB_BRIDGE_ADDRESS", .address "0x75Df5AF045d91108662D8080fD1FEFAd6aA0bb59"),
  ("ETH_XDAI_BRIDGE_ADDRESS", .address "0x4aa42145Aa6Ebf72e164C9bBC74fbD3788045016"),
  ("GC_XDAI_BRIDGE_ADDRESS", .address "0x7301CFA0e1756B71869E93d4e4Dca5c7d0eb0AA6"),
  ("XDAI_BRIDGE_HELPER_ADDRESS", .address "0xe30269bc61E677cD60aD163a221e464B7022fbf5"),
  ("AMB_BRIDGE_HELPER_ADDRESS", .address "0x7d94ece17e81355326e3359115D4B02411825EdD"),
  ("ETH_BLOCK_PROCESSING_MODE", .mode),
  ("GC_BLOCK_PROCESSING_MODE", .mode)]

/-- The text contains the name. -/
def Names (name text : String) : Prop := ∃ before after, text = before ++ name ++ after

/-- The variable is at fault, and the text says so. -/
structure Requirement.Refused (env : Environment) (parseAddress : String → Except String Address)
    (name : String) (requirement : Requirement) (e : String) : Prop where
  refuses : ¬requirement.Accepts env parseAddress name
  named : Names name e

section

variable {env env' : Environment} {parseAddress : String → Except String Address} {s : Settings}
  {name default e : String} {urls : List String}

theorem Requirement.accepts_congr (h : env' name = env name) (requirement : Requirement) :
    requirement.Accepts env' parseAddress name ↔ requirement.Accepts env parseAddress name := by
  cases requirement <;> simp only [Accepts, Environment.textOr, h]

theorem rpcUrls_refused (h : rpcUrlsFromEnv env name = .error e) :
    Requirement.urls.Refused env parseAddress name e := by
  unfold rpcUrlsFromEnv at h
  split at h
  · cases h
  · rename_i err henv
    obtain rfl := Except.error.inj h
    refine ⟨?_, "Error reading ", ": " ++ err.text, ?_⟩
    · rintro ⟨text, htext, -⟩
      rw [henv] at htext
      cases htext
    · simp [toString, String.append_assoc]

theorem atLeastOne_refused (hurls : rpcUrlsFromEnv env name = .ok urls)
    (h : atLeastOne name urls = .error e) : Requirement.urls.Refused env parseAddress name e := by
  unfold atLeastOne at h
  split at h
  · rename_i hnone
    obtain rfl := Except.error.inj h
    refine ⟨?_, "", " must contain at least one valid URL", ?_⟩
    · rintro ⟨text, htext, hsome⟩
      rw [rpcUrlsFromEnv, htext] at hurls
      exact hsome ((Except.ok.inj hurls).trans hnone)
    · simp [toString]
  · cases h

theorem address_refused (h : addressFromEnv env parseAddress name default = .error e) :
    (Requirement.address default).Refused env parseAddress name e := by
  unfold addressFromEnv at h
  split at h
  · cases h
  · rename_i err hparse
    obtain rfl := Except.error.inj h
    refine ⟨?_, "Error parsing ", ": " ++ err, ?_⟩
    · rintro ⟨address, haddress⟩
      rw [hparse] at haddress
      cases haddress
    · simp [toString, String.append_assoc]

theorem mode_refused {mode : BlockProcessingMode}
    (h : BlockProcessingMode.fromEnv env name mode = .error e) :
    Requirement.mode.Refused env parseAddress name e := by
  unfold BlockProcessingMode.fromEnv at h
  split at h
  · rename_i text htext
    obtain ⟨hunknown, rfl⟩ := BlockProcessingMode.parse_eq_error h rfl
    refine ⟨fun haccepts => hunknown (haccepts text htext), "Invalid ", ": '" ++
      toAsciiLowercase (trim text) ++ "' (expected 'fcr' or 'block-finality')", ?_⟩
    simp [toString, String.append_assoc]
  · cases h

/-- A failed start is the fault of one of these, and says which. -/
theorem exists_refused (h : fromEnv env parseAddress = .error e) :
    ∃ v ∈ requirements, v.2.Refused env parseAddress v.1 e := by
  simp only [fromEnv, bind_eq_error] at h
  rcases h with h | ⟨_, heth, h⟩
  · exact ⟨("ETH_RPC", .urls), by simp [requirements], rpcUrls_refused h⟩
  rcases h with h | ⟨_, hgc, h⟩
  · exact ⟨("GC_RPC", .urls), by simp [requirements], rpcUrls_refused h⟩
  rcases h with h | ⟨⟨_, _⟩, _, h⟩
  · exact ⟨("ETH_RPC", .urls), by simp [requirements], atLeastOne_refused heth h⟩
  rcases h with h | ⟨⟨_, _⟩, _, h⟩
  · exact ⟨("GC_RPC", .urls), by simp [requirements], atLeastOne_refused hgc h⟩
  have haddress : ∀ name default, addressFromEnv env parseAddress name default = .error e →
      (name, Requirement.address default) ∈ requirements →
      ∃ v ∈ requirements, v.2.Refused env parseAddress v.1 e :=
    fun name default h hmem => ⟨_, hmem, address_refused h⟩
  rcases h with h | ⟨_, _, h | ⟨_, _, h | ⟨_, _, h | ⟨_, _, h | ⟨_, _, h | ⟨_, _, h⟩⟩⟩⟩⟩⟩
  · exact haddress _ _ h (by simp [requirements])
  · exact haddress _ _ h (by simp [requirements])
  · exact haddress _ _ h (by simp [requirements])
  · exact haddress _ _ h (by simp [requirements])
  · exact haddress _ _ h (by simp [requirements])
  · exact haddress _ _ h (by simp [requirements])
  rcases h with h | ⟨_, _, h | ⟨_, _, h⟩⟩
  · exact ⟨("ETH_BLOCK_PROCESSING_MODE", .mode), by simp [requirements], mode_refused h⟩
  · exact ⟨("GC_BLOCK_PROCESSING_MODE", .mode), by simp [requirements], mode_refused h⟩
  · cases h

theorem rpcUrls_accepts (h : rpcUrlsFromEnv env name = .ok urls) (hne : urls ≠ []) :
    Requirement.urls.Accepts env parseAddress name := by
  unfold rpcUrlsFromEnv at h
  split at h
  · rename_i text htext
    exact ⟨text, htext, Except.ok.inj h ▸ hne⟩
  · cases h

theorem address_accepts {address : Address}
    (h : addressFromEnv env parseAddress name default = .ok address) :
    (Requirement.address default).Accepts env parseAddress name := by
  unfold addressFromEnv at h
  split at h
  · rename_i address hparse
    exact ⟨address, hparse⟩
  · cases h

theorem mode_accepts {mode mode' : BlockProcessingMode}
    (h : BlockProcessingMode.fromEnv env name mode = .ok mode') :
    Requirement.mode.Accepts env parseAddress name := by
  intro text htext
  rw [BlockProcessingMode.fromEnv, htext] at h
  exact BlockProcessingMode.known_of_parse h

theorem LoadedFrom.accepts (h : LoadedFrom env parseAddress s) :
    ∀ v ∈ requirements, v.2.Accepts env parseAddress v.1 := by
  simp only [requirements, List.forall_mem_cons]
  exact ⟨rpcUrls_accepts h.eth_rpc s.config.eth_rpc_ne, rpcUrls_accepts h.gc_rpc s.config.gc_rpc_ne,
    address_accepts h.eth_amb_bridge_address, address_accepts h.gc_amb_bridge_address,
    address_accepts h.eth_xdai_bridge_address, address_accepts h.gc_xdai_bridge_address,
    address_accepts h.xdai_bridge_helper_address, address_accepts h.amb_bridge_helper_address,
    mode_accepts h.eth_block_processing_mode, mode_accepts h.gc_block_processing_mode,
    List.forall_mem_nil _⟩

/-- **The start is refused for one variable at a time.** The settings are loaded exactly if
each of ten variables is what it has to be, whatever the others are. A refusal names one
that is not, and nothing set elsewhere can make up for it. -/
theorem refusal_blames_variable :
    ((∃ s, fromEnv env parseAddress = .ok s) ↔
      ∀ v ∈ requirements, v.2.Accepts env parseAddress v.1) ∧
    ∀ e, fromEnv env parseAddress = .error e → ∃ v ∈ requirements, Names v.1 e ∧
      ∀ env' : Environment, env' v.1 = env v.1 → ¬∃ s, fromEnv env' parseAddress = .ok s := by
  have haccepts : ∀ env : Environment, (∃ s, fromEnv env parseAddress = .ok s) →
      ∀ v ∈ requirements, v.2.Accepts env parseAddress v.1 := by
    rintro env ⟨s, hs⟩
    exact (fromEnv_eq_ok.mp hs).accepts
  refine ⟨⟨haccepts env, fun hall => ?_⟩, fun e he => ?_⟩
  · cases hload : fromEnv env parseAddress with
    | ok s => exact ⟨s, rfl⟩
    | error e =>
        obtain ⟨v, hv, hrefused⟩ := exists_refused hload
        exact absurd (hall v hv) hrefused.refuses
  · obtain ⟨v, hv, hrefused⟩ := exists_refused he
    refine ⟨v, hv, hrefused.named, fun env' hsame hload => hrefused.refuses ?_⟩
    exact (v.2.accepts_congr hsame).mp (haccepts env' hload v hv)

end

/-! ## Numbers -/

/-- The text is a numeral of `n`, with padding around it and a plus sign before it if
need be. -/
def Numeral (text : String) (n : Nat) : Prop :=
  ∃ before sign digits after, text.toList = before ++ (sign ++ digits) ++ after ∧
    (∀ c ∈ before, isWhitespace c = true) ∧ (∀ c ∈ after, isWhitespace c = true) ∧
    (sign = [] ∨ sign = ['+']) ∧ digits ≠ [] ∧ (∀ c ∈ digits, c.isDigit = true) ∧
    Nat.ofDigitChars 10 digits 0 = n

theorem isWhitespace_of_isDigit {c : Char} (h : c.isDigit = true) : isWhitespace c = false := by
  rw [Char.isDigit_iff_toNat] at h
  obtain ⟨hlo, hhi⟩ := h
  simp only [Char.reduceToNat] at hlo hhi
  simp [isWhitespace]
  omega

theorem toList_trim (text : String) : (trim text).toList = trimBy isWhitespace text.toList := by
  rw [trim, String.toList_ofList]

theorem decimalDigits_eq_some {cs : List Char} {n : Nat} : decimalDigits cs = some n ↔
    cs ≠ [] ∧ (∀ c ∈ cs, c.isDigit = true) ∧ Nat.ofDigitChars 10 cs 0 = n := by
  unfold decimalDigits
  split
  · rename_i h
    rw [List.all_eq_true] at h
    rw [Option.some.injEq]
    constructor
    · intro hvalue
      exact ⟨h.1, h.2, hvalue⟩
    · rintro ⟨-, -, hvalue⟩
      exact hvalue
  · rename_i h
    rw [List.all_eq_true] at h
    simp only [reduceCtorEq, false_iff]
    rintro ⟨hne, hdigits, -⟩
    exact h ⟨hne, hdigits⟩

/-- A text reads as the number it is a numeral of, unless that is too big. -/
theorem parseU64_trim {text : String} {n : { n : Nat // n ≤ u64Max }} :
    parseU64 (trim text) = some n ↔ Numeral text n.1 := by
  rw [parseU64, toList_trim, Option.bind_eq_some_iff]
  constructor
  · rintro ⟨m, hm, hle⟩
    split at hle
    · obtain rfl := Option.some.inj hle
      obtain ⟨before, after, htext, hbefore, hafter⟩ := exists_pad isWhitespace text.toList
      obtain ⟨hne, hdigits, hvalue⟩ := decimalDigits_eq_some.mp hm
      have hsign : ∃ sign, trimBy isWhitespace text.toList =
          sign ++ unsigned (trimBy isWhitespace text.toList) ∧ (sign = [] ∨ sign = ['+']) := by
        unfold unsigned
        split
        · rename_i heq
          exact ⟨['+'], heq, Or.inr rfl⟩
        · exact ⟨[], rfl, Or.inl rfl⟩
      obtain ⟨sign, hsign, hplus⟩ := hsign
      rw [hsign] at htext
      exact ⟨before, sign, _, after, htext, hbefore, hafter, hplus, hne, hdigits, hvalue⟩
    · cases hle
  · rintro ⟨before, sign, digits, after, htext, hbefore, hafter, hplus, hne, hdigits, hvalue⟩
    have hunpadded : ∀ c ∈ sign ++ digits, isWhitespace c = false := by
      intro c hc
      rcases List.mem_append.mp hc with hc | hc
      · rcases hplus with rfl | rfl
        · cases hc
        · obtain rfl := List.mem_singleton.mp hc
          rfl
      · exact isWhitespace_of_isDigit (hdigits c hc)
    have hdigits' : unsigned (sign ++ digits) = digits := by
      rcases hplus with rfl | rfl
      · rcases digits with _ | ⟨c, digits⟩
        · rfl
        · have hc : c ≠ '+' := by
            rintro rfl
            exact absurd (hdigits '+' List.mem_cons_self) (by decide)
          simp [unsigned, hc]
      · rfl
    rw [htext, trimBy_pad hbefore hafter, trimBy_eq_self hunpadded, hdigits']
    exact ⟨n.1, decimalDigits_eq_some.mpr ⟨hne, hdigits, hvalue⟩, dif_pos n.2⟩

section

variable {env : Environment} {name : String} {default knob : Knob}

theorem knob_of_numeral {text : String} (htext : env name = .ok text)
    (hnumeral : Numeral text knob.1) : positiveU64FromEnv env name default = knob := by
  have hparse : parseU64 (trim text) = some ⟨knob.1, knob.2.2⟩ := parseU64_trim.mpr hnumeral
  have hblank : trim text ≠ "" := by
    intro hblank
    rw [hblank] at hparse
    cases hparse
  have hpos : knob.1 ≠ 0 := Nat.one_le_iff_ne_zero.mp knob.2.1
  simp only [positiveU64FromEnv, htext, if_neg hblank, hparse, dif_neg hpos]

theorem knob_of_no_numeral
    (hnone : ∀ text, env name = .ok text → ∀ n : Knob, ¬Numeral text n.1) :
    positiveU64FromEnv env name default = default := by
  unfold positiveU64FromEnv
  split
  · rfl
  rename_i text htext
  simp only
  split
  · rfl
  split
  · rfl
  rename_i value hvalue
  split
  · rfl
  rename_i hpos
  exact absurd (parseU64_trim.mp hvalue)
    (hnone text htext ⟨value.1, Nat.one_le_iff_ne_zero.mpr hpos, value.2⟩)

/-- **A knob is its numeral or its default.** Set to a numeral of a positive number that
fits, with or without padding, plus sign or leading zeros, it is that number. In every
other case, be it unset, blank, malformed, negative, zero or too big, it is the default. -/
theorem knob_is_numeral_or_default : positiveU64FromEnv env name default = knob ↔
    (∃ text, env name = .ok text ∧ Numeral text knob.1) ∨
      (knob = default ∧ ∀ text, env name = .ok text → ∀ n : Knob, ¬Numeral text n.1) := by
  constructor
  · rintro rfl
    by_cases hsome : ∃ text, env name = .ok text ∧ ∃ n : Knob, Numeral text n.1
    · obtain ⟨text, htext, n, hn⟩ := hsome
      rw [knob_of_numeral htext hn]
      exact Or.inl ⟨text, htext, hn⟩
    · have hnone : ∀ text, env name = .ok text → ∀ n : Knob, ¬Numeral text n.1 :=
        fun text htext n hn => hsome ⟨text, htext, n, hn⟩
      exact Or.inr ⟨knob_of_no_numeral hnone, hnone⟩
  · rintro (⟨text, htext, hn⟩ | ⟨rfl, hnone⟩)
    · exact knob_of_numeral htext hn
    · exact knob_of_no_numeral hnone

end

theorem numeral_toString (n : Nat) : Numeral (toString n) n := by
  refine ⟨[], [], Nat.toDigits 10 n, [], ?_, List.forall_mem_nil _, List.forall_mem_nil _,
    Or.inl rfl, Nat.toDigits_ne_nil, fun c hc => ?_, Nat.ofDigitChars_ten_toDigits⟩
  · simp
  · exact Nat.isDigit_of_mem_toDigits (by decide) (by decide) hc

end Config

/-! ## Settings written down -/

/-- The list with commas between. -/
def writeUrls (urls : List String) : String :=
  String.ofList ([','].intercalate (urls.map String.toList))

namespace Settings

/-- The URLs are such as can stand in a list. -/
structure WellFormed (s : Settings) : Prop where
  eth_rpc : ∀ url ∈ s.config.eth_rpc, IsPiece isWhitespace ',' url.toList
  gc_rpc : ∀ url ∈ s.config.gc_rpc, IsPiece isWhitespace ',' url.toList
  eth_bc_rpc : ∀ url ∈ s.config.eth_bc_rpc, IsPiece isWhitespace ',' url.toList
  gc_bc_rpc : ∀ url ∈ s.config.gc_bc_rpc, IsPiece isWhitespace ',' url.toList

/-- Each setting in its variable. -/
def entries (s : Settings) : List (String × Except VarError String) := [
  ("ETH_RPC", .ok (writeUrls s.config.eth_rpc)),
  ("GC_RPC", .ok (writeUrls s.config.gc_rpc)),
  ("ETH_BC_RPC", .ok (writeUrls s.config.eth_bc_rpc)),
  ("GC_BC_RPC", .ok (writeUrls s.config.gc_bc_rpc)),
  ("XDAI_VALIDATOR_PRIV_KEY",
    s.config.xdai_validator_private_key.elim (.error .notPresent) .ok),
  ("AMB_VALIDATOR_PRIV_KEY", s.config.amb_validator_private_key.elim (.error .notPresent) .ok),
  ("ETH_AMB_BRIDGE_ADDRESS", .ok s.config.eth_amb_bridge_address.debug),
  ("GC_AMB_BRIDGE_ADDRESS", .ok s.config.gc_amb_bridge_address.debug),
  ("ETH_XDAI_BRIDGE_ADDRESS", .ok s.config.eth_xdai_bridge_address.debug),
  ("GC_XDAI_BRIDGE_ADDRESS", .ok s.config.gc_xdai_bridge_address.debug),
  ("XDAI_EXECUTE_MESSAGE_ON_FOREIGN", .ok s.config.xdai_execute_message_on_foreign),
  ("AMB_EXECUTE_MESSAGE_ON_FOREIGN", .ok s.config.amb_execute_message_on_foreign),
  ("XDAI_BRIDGE_HELPER_ADDRESS", .ok s.config.xdai_bridge_helper_address.debug),
  ("AMB_BRIDGE_HELPER_ADDRESS", .ok s.config.amb_bridge_helper_address.debug),
  ("POLL_INTERVAL_SECS", .ok (toString s.poll_interval_secs.1)),
  ("FCR_CHECK_INTERVAL_SECS", .ok (toString s.fcr_check_interval_secs.1)),
  ("MAX_RETRY_COUNT", .ok (toString s.config.max_retry_count)),
  ("MAX_BLOCK_RANGE", .ok (toString s.config.max_block_range)),
  ("ETH_BLOCK_PROCESSING_MODE", .ok s.config.eth_block_processing_mode.asStr),
  ("GC_BLOCK_PROCESSING_MODE", .ok s.config.gc_block_processing_mode.asStr)]

def write (s : Settings) : Environment :=
  fun name => (lookup Prod.fst name s.entries).elim (.error .notPresent) Prod.snd

theorem write_of_mem (s : Settings) {entry : String × Except VarError String}
    (h : entry ∈ s.entries) : s.write entry.1 = entry.2 := by
  have hnodup : (s.entries.map Prod.fst).Nodup := by
    simp only [entries, List.map_cons, List.map_nil]
    decide +kernel
  rw [write, lookup_of_mem hnodup h]
  rfl

end Settings

namespace Config

section

variable {env : Environment} {parseAddress : String → Except String Address} {s : Settings}
  {name default : String} {urls : List String}

theorem parseRpcUrls_writeUrls (h : ∀ url ∈ urls, IsPiece isWhitespace ',' url.toList) :
    parseRpcUrls (writeUrls urls) = urls := by
  have hpieces : ∀ piece ∈ urls.map String.toList, IsPiece isWhitespace ',' piece := by
    intro piece hpiece
    obtain ⟨url, hurl, rfl⟩ := List.mem_map.mp hpiece
    exact h url hurl
  rw [parseRpcUrls, writeUrls, String.toList_ofList, pieces_of_isPiece hpieces, List.map_map]
  simp

theorem isPiece_of_mem_parseRpcUrls {value url : String} (h : url ∈ parseRpcUrls value) :
    IsPiece isWhitespace ',' url.toList := by
  obtain ⟨piece, hpiece, rfl⟩ := List.mem_map.mp h
  rw [String.toList_ofList]
  exact isPiece_of_mem_pieces hpiece

theorem rpcUrls_of_written (henv : env name = .ok (writeUrls urls))
    (h : ∀ url ∈ urls, IsPiece isWhitespace ',' url.toList) :
    rpcUrlsFromEnv env name = .ok urls := by
  simp only [rpcUrlsFromEnv, henv, parseRpcUrls_writeUrls h]

theorem beaconUrls_of_written (henv : env name = .ok (writeUrls urls))
    (h : ∀ url ∈ urls, IsPiece isWhitespace ',' url.toList) :
    beaconUrlsFromEnv env name = urls := by
  simp only [beaconUrlsFromEnv, henv, parseRpcUrls_writeUrls h]

theorem textOr_of_written {text : String} (henv : env name = .ok text) :
    env.textOr name default = text := by
  simp only [Environment.textOr, henv]

theorem key_of_written {key : Option String}
    (henv : env name = key.elim (.error .notPresent) .ok) : (env name).toOption = key := by
  rw [henv]
  cases key <;> rfl

theorem address_of_written {address : Address} (henv : env name = .ok address.debug)
    (hparse : parseAddress address.debug = .ok address) :
    addressFromEnv env parseAddress name default = .ok address := by
  simp only [addressFromEnv, Environment.textOr, henv, hparse]

theorem knob_of_written {fallback knob : Knob} (henv : env name = .ok (toString knob.1)) :
    positiveU64FromEnv env name fallback = knob :=
  knob_of_numeral henv (numeral_toString _)

theorem mode_of_written {fallback mode : BlockProcessingMode}
    (henv : env name = .ok mode.asStr) :
    BlockProcessingMode.fromEnv env name fallback = .ok mode := by
  have hread : toAsciiLowercase (trim mode.asStr) = mode.asStr := by
    cases mode <;> decide +kernel
  simp only [BlockProcessingMode.fromEnv, henv, BlockProcessingMode.parse, hread]
  cases mode <;> rfl

/-- What is written of well-formed settings is read back, variable by variable. -/
theorem loadedFrom_write (hparse : ∀ a : Address, parseAddress a.debug = .ok a)
    (h : s.WellFormed) : LoadedFrom s.write parseAddress s := by
  have hvar : ∀ entry ∈ s.entries, s.write entry.1 = entry.2 := fun entry => s.write_of_mem
  simp only [Settings.entries, List.forall_mem_cons] at hvar
  obtain ⟨heth, hgc, heth_bc, hgc_bc, hxdai_key, hamb_key, heth_amb, hgc_amb, heth_xdai, hgc_xdai,
    hxdai_flag, hamb_flag, hxdai_helper, hamb_helper, hpoll, hfcr, hretry, hrange, heth_mode,
    hgc_mode, -⟩ := hvar
  have hretry' : positiveU64FromEnv s.write "MAX_RETRY_COUNT" defaultMaxRetryCount =
      ⟨_, s.config.max_retry_count_pos, s.config.max_retry_count_le⟩ := knob_of_written hretry
  have hrange' : positiveU64FromEnv s.write "MAX_BLOCK_RANGE" defaultMaxBlockRange =
      ⟨_, s.config.max_block_range_pos, s.config.max_block_range_le⟩ := knob_of_written hrange
  exact {
    eth_rpc := rpcUrls_of_written heth h.eth_rpc
    gc_rpc := rpcUrls_of_written hgc h.gc_rpc
    eth_bc_rpc := beaconUrls_of_written heth_bc h.eth_bc_rpc
    gc_bc_rpc := beaconUrls_of_written hgc_bc h.gc_bc_rpc
    xdai_validator_private_key := key_of_written hxdai_key
    amb_validator_private_key := key_of_written hamb_key
    eth_amb_bridge_address := address_of_written heth_amb (hparse _)
    gc_amb_bridge_address := address_of_written hgc_amb (hparse _)
    eth_xdai_bridge_address := address_of_written heth_xdai (hparse _)
    gc_xdai_bridge_address := address_of_written hgc_xdai (hparse _)
    xdai_bridge_helper_address := address_of_written hxdai_helper (hparse _)
    amb_bridge_helper_address := address_of_written hamb_helper (hparse _)
    xdai_execute_message_on_foreign := textOr_of_written hxdai_flag
    amb_execute_message_on_foreign := textOr_of_written hamb_flag
    max_retry_count := congrArg Subtype.val hretry'
    max_block_range := congrArg Subtype.val hrange'
    eth_block_processing_mode := mode_of_written heth_mode
    gc_block_processing_mode := mode_of_written hgc_mode
    poll_interval_secs := knob_of_written hpoll
    fcr_check_interval_secs := knob_of_written hfcr }

theorem wellFormed_of_rpcUrls (h : rpcUrlsFromEnv env name = .ok urls) :
    ∀ url ∈ urls, IsPiece isWhitespace ',' url.toList := by
  unfold rpcUrlsFromEnv at h
  split at h
  · obtain rfl := Except.ok.inj h
    exact fun url hurl => isPiece_of_mem_parseRpcUrls hurl
  · cases h

theorem wellFormed_of_beaconUrls :
    ∀ url ∈ beaconUrlsFromEnv env name, IsPiece isWhitespace ',' url.toList := by
  unfold beaconUrlsFromEnv
  split
  · exact fun url hurl => isPiece_of_mem_parseRpcUrls hurl
  · exact List.forall_mem_nil _

theorem LoadedFrom.wellFormed (h : LoadedFrom env parseAddress s) : s.WellFormed where
  eth_rpc := wellFormed_of_rpcUrls h.eth_rpc
  gc_rpc := wellFormed_of_rpcUrls h.gc_rpc
  eth_bc_rpc := h.eth_bc_rpc ▸ wellFormed_of_beaconUrls
  gc_bc_rpc := h.gc_bc_rpc ▸ wellFormed_of_beaconUrls

/-- **The settings that can be loaded are those that can be written down.** Where the
addresses read as they print, settings are loaded from some environment exactly if their
URLs can stand in a list, and then from the environment that is written of them. -/
theorem settings_round_trip (hparse : ∀ a : Address, parseAddress a.debug = .ok a) :
    ((∃ env, fromEnv env parseAddress = .ok s) ↔ s.WellFormed) ∧
      (s.WellFormed ↔ fromEnv s.write parseAddress = .ok s) := by
  have hwritten : s.WellFormed → fromEnv s.write parseAddress = .ok s :=
    fun h => fromEnv_eq_ok.mpr (loadedFrom_write hparse h)
  have hloaded : (∃ env, fromEnv env parseAddress = .ok s) → s.WellFormed := by
    rintro ⟨env, henv⟩
    exact (fromEnv_eq_ok.mp henv).wellFormed
  refine ⟨⟨hloaded, fun h => ⟨s.write, hwritten h⟩⟩, hwritten, fun h => hloaded ⟨s.write, h⟩⟩

end

end Config

namespace Deployment

/-- Addresses are read from hex, with or without the prefix. -/
def parseAddress (text : String) : Except String Address :=
  match hexDecode text.toList with
  | .ok bs => if h : bs.length = 20 then .ok ⟨bs, h⟩ else .error "invalid string length"
  | .error _ => .error "invalid string"

theorem parseAddress_debug (a : Address) : parseAddress a.debug = .ok a := by
  have hprefix : hexDecode a.debug.toList = .ok a.bytes := by
    have hpairs : hexPairs (a.bytes.flatMap hexPair) = some a.bytes := hexPairs_flatMap _
    rw [FixedBytes.debug, String.toList_append, toList_hexEncode]
    simp [hexDecode, hpairs]
  simp only [parseAddress, hprefix, a.size_eq, dif_pos]

/-- The settings of the deployment. -/
def settings : Settings where
  config := config
  poll_interval_secs := ⟨10, by decide⟩
  fcr_check_interval_secs := ⟨30, by decide⟩

end Deployment

theorem Config.settings_round_trip_deployed : Deployment.settings.WellFormed ∧
    Config.fromEnv Deployment.settings.write Deployment.parseAddress = .ok Deployment.settings := by
  have hpiece : ∀ url ∈ ["http://eth-el", "http://gc-el", "http://eth-beacon",
      "http://gc-beacon"], IsPiece isWhitespace ',' (String.toList url) := by
    simp only [List.forall_mem_cons]
    refine ⟨?_, ?_, ?_, ?_, List.forall_mem_nil _⟩ <;>
      exact ⟨by decide +kernel, by decide +kernel, by decide +kernel⟩
  simp only [List.forall_mem_cons] at hpiece
  have hwf : Deployment.settings.WellFormed := by
    constructor <;> intro url hurl <;> obtain rfl := List.mem_singleton.mp hurl
    · exact hpiece.1
    · exact hpiece.2.1
    · exact hpiece.2.2.1
    · exact hpiece.2.2.2.1
  exact ⟨hwf, (Config.settings_round_trip Deployment.parseAddress_debug).2.mp hwf⟩

end BridgeValidator
