import BridgeValidator.Framework.BigEndian
import BridgeValidator.Service.OnChainSender

/-!
# The xDai message

The processor builds the message as hex text, checks the length of every part
and decodes the text before it signs. Address, value and hash carry their
sizes in their types, so the checks always pass and the decoder gives back the
124 bytes that went in. The sender cuts these bytes apart again: what it reads
is what the processor was given, and of every 124 bytes that name the configured
bridge the processor would make the same text.
-/

namespace BridgeValidator

open Interaction

/-! ## Hex text -/

theorem hexVal_hexDigit : ∀ n, n < 16 → hexVal (hexDigit n) = some n := by decide

theorem hexDigit_ne_x : ∀ n, n < 16 → hexDigit n ≠ 'x' := by decide

theorem hexDigit_utf8Size : ∀ n, n < 16 → (hexDigit n).utf8Size = 1 := by decide

theorem hexPairs_flatMap (bs : Bytes) : hexPairs (bs.flatMap hexPair) = some bs := by
  induction bs with
  | nil => rfl
  | cons b bs ih =>
      have hb : b.toNat < 256 := b.toNat_lt
      have hhi := hexVal_hexDigit (b.toNat / 16) (by omega)
      have hlo := hexVal_hexDigit (b.toNat % 16) (by omega)
      have hbyte : 16 * (b.toNat / 16) + b.toNat % 16 = b.toNat := Nat.div_add_mod _ _
      have hof : UInt8.ofNat (16 * (b.toNat / 16) + b.toNat % 16) = b := by
        rw [hbyte, UInt8.ofNat_toNat]
      simp only [List.flatMap_cons, hexPair, List.cons_append, List.nil_append, hexPairs, hhi, hlo]
      rw [show hexPairs (List.flatMap hexPair bs) = some bs from ih]
      simp only [hof, Option.bind_eq_bind, Option.bind_some, Option.pure_def]

theorem hexDecode_flatMap (bs : Bytes) : hexDecode (bs.flatMap hexPair) = .ok bs := by
  cases bs with
  | nil => rfl
  | cons b bs =>
      have hb : b.toNat < 256 := b.toNat_lt
      have hx : hexDigit (b.toNat % 16) ≠ 'x' := hexDigit_ne_x _ (by omega)
      have hpairs := hexPairs_flatMap (b :: bs)
      simp only [List.flatMap_cons, hexPair, List.cons_append, List.nil_append] at hpairs
      simp [hexDecode, hexPair, hx, hpairs]

theorem utf8ByteSize_hexEncode (bs : Bytes) : (hexEncode bs).utf8ByteSize = 2 * bs.length := by
  induction bs with
  | nil => decide
  | cons b bs ih =>
      have hb : b.toNat < 256 := b.toNat_lt
      have hhi := hexDigit_utf8Size (b.toNat / 16) (by omega)
      have hlo := hexDigit_utf8Size (b.toNat % 16) (by omega)
      have hcons : hexEncode (b :: bs) = String.ofList (hexPair b) ++ hexEncode bs := by
        rw [hexEncode, hexEncode, ← String.ofList_append]
        rfl
      have hpair : (String.ofList (hexPair b)).utf8ByteSize = 2 := by
        rw [hexPair, ← String.size_toByteArray, String.toByteArray_ofList]
        simp [hhi, hlo, List.utf8Encode]
      rw [hcons, String.utf8ByteSize_append, ih, hpair, List.length_cons]
      omega

theorem hexEncode_append (a b : Bytes) : hexEncode (a ++ b) = hexEncode a ++ hexEncode b := by
  rw [hexEncode, List.flatMap_append, String.ofList_append]
  rfl

/-! ## Words -/

theorem FixedBytes.ext_bytes {n : Nat} {a b : FixedBytes n} (h : a.bytes = b.bytes) : a = b := by
  cases a
  cases b
  cases h
  rfl

theorem toBeBytes_eq (value : U256) : toBeBytes value = bigEndian 32 value.toNat := rfl

theorem length_toBeBytes (value : U256) : (toBeBytes value).length = 32 := by
  simp [toBeBytes]

theorem fromBeBytes_eq (bs : Bytes) : fromBeBytes bs = BitVec.ofNat 256 (ofBigEndian bs) := rfl

theorem fromBeBytes_toBeBytes (value : U256) : fromBeBytes (toBeBytes value) = value := by
  have hpow : (256 : Nat) ^ 32 = 2 ^ 256 := by decide
  apply BitVec.eq_of_toNat_eq
  rw [fromBeBytes_eq, toBeBytes_eq, ofBigEndian_bigEndian, BitVec.toNat_ofNat, hpow,
    Nat.mod_eq_of_lt value.isLt, Nat.mod_eq_of_lt value.isLt]

theorem toBeBytes_fromBeBytes {bs : Bytes} (h : bs.length = 32) :
    toBeBytes (fromBeBytes bs) = bs := by
  have hpow : (256 : Nat) ^ 32 = 2 ^ 256 := by decide
  have hlt : ofBigEndian bs < 2 ^ 256 := by
    rw [← hpow, ← h]
    exact ofBigEndian_lt bs
  rw [toBeBytes_eq, fromBeBytes_eq, BitVec.toNat_ofNat, Nat.mod_eq_of_lt hlt, ← h]
  exact bigEndian_ofBigEndian bs

theorem toBeBytes_injective : Function.Injective toBeBytes :=
  Function.LeftInverse.injective fromBeBytes_toBeBytes

/-! ## The 124 bytes -/

/-- recipient, value, nonce, foreign bridge and token, one after the other. -/
def xdaiMessageBytes (cfg : Config) (recipient : Address) (value : U256) (nonce : B256)
    (token_address : Address) : Bytes :=
  recipient.bytes ++ toBeBytes value ++ nonce.bytes ++ cfg.eth_xdai_bridge_address.bytes ++
    token_address.bytes

namespace MessageProcessor

variable {cfg : Config} {recipient token_address : Address} {value : U256} {nonce : B256}

theorem length_xdaiMessageBytes :
    (xdaiMessageBytes cfg recipient value nonce token_address).length = 124 := by
  simp only [xdaiMessageBytes, List.length_append, length_toBeBytes, FixedBytes.size_eq]

theorem checkLen_hexEncode {field : String} {bs : Bytes} {n : Nat} (h : bs.length = n) :
    checkLen field (hexEncode bs) n = .ok () := by
  unfold checkLen
  rw [utf8ByteSize_hexEncode, h]
  exact if_neg (not_not.mpr rfl)

/-- No length check of the message can fail. -/
theorem createXdaiMessage_eq : createXdaiMessage cfg recipient value nonce token_address =
    .ok ("0x" ++ hexEncode (xdaiMessageBytes cfg recipient value nonce token_address)) := by
  have hmessage : "0x" ++ hexEncode recipient.bytes ++ hexEncode (toBeBytes value) ++
      hexEncode nonce.bytes ++ hexEncode cfg.eth_xdai_bridge_address.bytes ++
      hexEncode token_address.bytes =
      "0x" ++ hexEncode (xdaiMessageBytes cfg recipient value nonce token_address) := by
    simp only [xdaiMessageBytes, hexEncode_append, String.append_assoc]
  have hsize : ("0x" ++ hexEncode (xdaiMessageBytes cfg recipient value nonce
      token_address)).utf8ByteSize = 250 := by
    rw [String.utf8ByteSize_append, utf8ByteSize_hexEncode, length_xdaiMessageBytes]
    decide
  unfold createXdaiMessage
  simp only [checkLen_hexEncode recipient.size_eq, checkLen_hexEncode (length_toBeBytes value),
    checkLen_hexEncode nonce.size_eq, checkLen_hexEncode cfg.eth_xdai_bridge_address.size_eq,
    checkLen_hexEncode token_address.size_eq, hmessage, hsize]
  rfl

/-- What is signed are the bytes of the parts. -/
theorem hexDecode_message (bs : Bytes) :
    hexDecode (("0x" ++ hexEncode bs).toList.drop 2) = .ok bs := by
  rw [String.toList_append, toList_hexEncode]
  exact hexDecode_flatMap bs

end MessageProcessor

/-! ## The sender's reading -/

namespace OnChainSender

variable {m : Bytes}

theorem parseXdaiMessage_isOk_iff : (∃ parsed, parseXdaiMessage m = .ok parsed) ↔
    m.length = 124 := by
  constructor
  · rintro ⟨parsed, h⟩
    by_contra hlen
    rw [parseXdaiMessage, dif_neg hlen] at h
    cases h
  · intro hlen
    exact ⟨_, dif_pos hlen⟩

/-- The parts of a message, put one after the other, are the message. -/
theorem bytes_of_parsed {parsed : ParsedXdaiMessage} (h : parseXdaiMessage m = .ok parsed) :
    parsed.recipient.bytes ++ toBeBytes parsed.value ++ parsed.nonce.bytes ++
      parsed.bridge.bytes ++ parsed.token.bytes = m := by
  have hlen : m.length = 124 := parseXdaiMessage_isOk_iff.mp ⟨parsed, h⟩
  rw [parseXdaiMessage, dif_pos hlen] at h
  obtain rfl := Except.ok.inj h
  have hvalue : ((m.drop 20).take 32).length = 32 := by simp [hlen]
  have htoken : (m.drop 104).take 20 = m.drop 104 := List.take_of_length_le (by simp [hlen])
  have hdrop : ∀ i k, (m.drop i).take k ++ m.drop (i + k) = m.drop i := by
    intro i k
    rw [← List.drop_drop]
    exact List.take_append_drop k _
  simp only [toBeBytes_fromBeBytes hvalue, htoken, List.append_assoc]
  rw [hdrop 84 20, hdrop 52 32, hdrop 20 32, List.take_append_drop]

/-- A message of parts is parsed back into them. -/
theorem parseXdaiMessage_parts (parts : ParsedXdaiMessage) :
    parseXdaiMessage (parts.recipient.bytes ++ toBeBytes parts.value ++ parts.nonce.bytes ++
      parts.bridge.bytes ++ parts.token.bytes) = .ok parts := by
  generalize hm : parts.recipient.bytes ++ toBeBytes parts.value ++ parts.nonce.bytes ++
    parts.bridge.bytes ++ parts.token.bytes = m
  have hlen : m.length = 124 := by
    rw [← hm]
    simp only [List.length_append, length_toBeBytes, FixedBytes.size_eq]
  obtain ⟨parsed, hparsed⟩ := parseXdaiMessage_isOk_iff.mpr hlen
  -- both are cut from the same bytes, at the same places
  have hsame := (bytes_of_parsed hparsed).trans hm.symm
  obtain ⟨hsame, htoken⟩ := List.append_inj' hsame (by simp only [FixedBytes.size_eq])
  obtain ⟨hsame, hbridge⟩ := List.append_inj' hsame (by simp only [FixedBytes.size_eq])
  obtain ⟨hsame, hnonce⟩ := List.append_inj' hsame (by simp only [FixedBytes.size_eq])
  obtain ⟨hrecipient, hvalue⟩ := List.append_inj' hsame (by simp only [length_toBeBytes])
  have heq : parsed = parts := by
    cases parsed
    cases parts
    simp only [ParsedXdaiMessage.mk.injEq]
    exact ⟨FixedBytes.ext_bytes hrecipient, toBeBytes_injective hvalue,
      FixedBytes.ext_bytes hnonce, FixedBytes.ext_bytes hbridge, FixedBytes.ext_bytes htoken⟩
  rw [hparsed, heq]

end OnChainSender

/-! ## What is signed -/

namespace MessageProcessor

variable {lib : Externals} {cfg : Config} {row : EventLogRow}

/-- The call hands over a message with its signature. -/
def HandsSigned (lib : Externals) (cfg : Config) (message : Bytes) (o : Op) : Prop :=
  ∃ signer signature id stage, IsSigner lib cfg.xdai_validator_private_key signer ∧
    lib.signMessage signer message = .ok signature ∧
    o = .channelSend ⟨.XdaiGc cfg.gc_xdai_bridge_address ⟨signature, message⟩, id, stage⟩

/-- The only thing handed over for an xDai request is the signed message. -/
def signing (lib : Externals) (cfg : Config) (message : Bytes) : Protocol Calls Unit where
  allows _ o := HandsSigned lib cfg message o
  admits _ _ _ := True
  next _ _ _ := ()

theorem signing_processMessageOrSkip {log : Log} {recipient token_address : Address}
    {value : U256} {nonce : B256} (hmode : row.bridge_mode = .XDAI_GC)
    (hlog : lib.fromValue row.log_data = .ok log)
    (hdata : lib.decodeXdaiSignature log = .ok (recipient, value, nonce, token_address)) :
    Act.Follows (signing lib cfg (xdaiMessageBytes cfg recipient value nonce token_address)) ()
      (processMessageOrSkip lib cfg row) fun _ _ => True := by
  unfold processMessageOrSkip
  refine Act.follows_bind.mpr (follows_orErr.mpr ⟨fun log' hlog' => ?_, fun _ _ => trivial⟩)
  obtain rfl := Except.ok.inj (hlog.symm.trans hlog')
  simp only [hmode]
  refine Act.follows_bind.mpr (follows_orErr.mpr ⟨fun fields hfields => ?_, fun _ _ => trivial⟩)
  obtain rfl := Except.ok.inj (hdata.symm.trans hfields)
  simp only [createXdaiMessage_eq]
  refine Act.follows_bind.mpr (Act.follows_orThrow.mpr ⟨fun text htext => ?_, fun _ _ => trivial⟩)
  obtain rfl := Except.ok.inj htext
  -- decoded at once: the text itself would be unfolded by every step
  simp only [hexDecode_message]
  refine Act.follows_bind.mpr (follows_loadSigner.mpr ⟨fun _ => trivial, fun key hkey =>
    ⟨fun signer hparse => ?_, fun _ _ => trivial⟩⟩)
  refine Act.follows_bind.mpr (follows_orErr.mpr ⟨fun bytes hbytes => ?_, fun _ _ => trivial⟩)
  obtain rfl := Except.ok.inj hbytes
  refine Act.follows_bind.mpr (follows_orErr.mpr ⟨fun signature hsign => ?_, fun _ _ => trivial⟩)
  refine Act.follows_bind.mpr (follows_await.mpr ⟨?_, fun x _ => ?_⟩)
  · exact ⟨signer, signature, row.id, row.stage.getD .home, ⟨key, hkey, hparse⟩, hsign, rfl⟩
  · exact follows_orErr.mpr ⟨fun _ _ => trivial, fun _ _ => trivial⟩

end MessageProcessor

open MessageProcessor OnChainSender

/-- The two services agree on the message. -/
structure XdaiCodec (cfg : Config) : Prop where
  /-- every request has a text, and its bytes say what was requested -/
  creates : ∀ recipient value nonce token, ∃ bytes,
    createXdaiMessage cfg recipient value nonce token = .ok ("0x" ++ hexEncode bytes) ∧
    hexDecode (("0x" ++ hexEncode bytes).toList.drop 2) = .ok bytes ∧ bytes.length = 124 ∧
    parseXdaiMessage bytes =
      .ok ⟨recipient, value, nonce, cfg.eth_xdai_bridge_address, token⟩
  parses : ∀ m, (∃ parsed, parseXdaiMessage m = .ok parsed) ↔ m.length = 124
  /-- what names the configured bridge is made again from what is read -/
  recreates : ∀ m parsed, parseXdaiMessage m = .ok parsed →
    parsed.bridge = cfg.eth_xdai_bridge_address →
    createXdaiMessage cfg parsed.recipient parsed.value parsed.nonce parsed.token =
      .ok ("0x" ++ hexEncode m)
  distinct : ∀ recipient value nonce token recipient' value' nonce' token' text text' bytes,
    createXdaiMessage cfg recipient value nonce token = .ok text →
    createXdaiMessage cfg recipient' value' nonce' token' = .ok text' →
    hexDecode (text.toList.drop 2) = .ok bytes → hexDecode (text'.toList.drop 2) = .ok bytes →
    recipient = recipient' ∧ value = value' ∧ nonce = nonce' ∧ token = token'
  /-- these bytes are what is signed and handed over -/
  signs : ∀ lib row log recipient value nonce token text bytes tr result,
    row.bridge_mode = .XDAI_GC → lib.fromValue row.log_data = .ok log →
    lib.decodeXdaiSignature log = .ok (recipient, value, nonce, token) →
    createXdaiMessage cfg recipient value nonce token = .ok text →
    hexDecode (text.toList.drop 2) = .ok bytes →
    (processMessageOrSkip lib cfg row).Runs tr result →
    ∀ e ∈ tr, HandsSigned lib cfg bytes e.op

/-- **The xDai message codec.** -/
theorem xdai_message_codec (cfg : Config) : XdaiCodec cfg := by
  have hbytes : ∀ {recipient value nonce token text bytes},
      createXdaiMessage cfg recipient value nonce token = .ok text →
      hexDecode (text.toList.drop 2) = .ok bytes →
      xdaiMessageBytes cfg recipient value nonce token = bytes := by
    intro recipient value nonce token text bytes hcreate hdecode
    obtain rfl := Except.ok.inj (createXdaiMessage_eq.symm.trans hcreate)
    exact Except.ok.inj ((hexDecode_message _).symm.trans hdecode)
  have hparse : ∀ recipient value nonce token,
      parseXdaiMessage (xdaiMessageBytes cfg recipient value nonce token) =
        .ok ⟨recipient, value, nonce, cfg.eth_xdai_bridge_address, token⟩ :=
    fun recipient value nonce token =>
      parseXdaiMessage_parts ⟨recipient, value, nonce, cfg.eth_xdai_bridge_address, token⟩
  refine ⟨?_, fun m => parseXdaiMessage_isOk_iff, ?_, ?_, ?_⟩
  · intro recipient value nonce token
    exact ⟨_, createXdaiMessage_eq, hexDecode_message _, length_xdaiMessageBytes, hparse _ _ _ _⟩
  · intro m parsed hparsed hbridge
    have hm : xdaiMessageBytes cfg parsed.recipient parsed.value parsed.nonce parsed.token = m := by
      rw [xdaiMessageBytes, ← hbridge]
      exact bytes_of_parsed hparsed
    rw [createXdaiMessage_eq, hm]
  · intro recipient value nonce token recipient' value' nonce' token' text text' bytes
      hcreate hcreate' hdecode hdecode'
    have hsame := (hbytes hcreate hdecode).trans (hbytes hcreate' hdecode').symm
    have hparsed := hparse recipient value nonce token
    rw [hsame, hparse] at hparsed
    obtain ⟨⟩ := Except.ok.inj hparsed
    exact ⟨rfl, rfl, rfl, rfl⟩
  · intro lib row log recipient value nonce token text bytes tr result hmode hlog hdata hcreate
      hdecode hrun
    obtain rfl := hbytes hcreate hdecode
    have hfollows : Act.Follows (signing lib cfg (xdaiMessageBytes cfg recipient value nonce token))
        () (processMessageOrSkip lib cfg row) fun _ _ => True :=
      signing_processMessageOrSkip hmode hlog hdata
    exact (Prog.Follows.of_runs hfollows hrun
      (Protocol.admitted_of_all _ (fun _ _ _ => trivial) _ _)).1.forall fun _ _ h => h

end BridgeValidator
