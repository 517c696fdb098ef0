import Litecoin.Address.Text
import Litecoin.Base58.RoundTrip
import Litecoin.Bech32.Bip173

/-! Which addresses are read back from their text, and which texts are the text of the address
they are read as. -/
namespace Litecoin
open Wire Consensus Script Bech32
open Bip32 (NetworkKind)

theorem KnownHrp.fromHrp_eq_ok {hrp : Bytes} {known : KnownHrp} :
    fromHrp hrp = .ok known ↔ hrp = known.toHrp := by
  constructor
  · intro read
    unfold fromHrp at read
    split_ifs at read with ltc tltc rltc
    · obtain rfl := Except.ok.inj read
      exact ltc
    · obtain rfl := Except.ok.inj read
      exact tltc
    · obtain rfl := Except.ok.inj read
      exact rltc
  · rintro rfl
    cases known <;> decide

namespace Address

/-- `TryFrom<Fe32> for WitnessVersion`. -/
theorem tryFromU8_toFe {fe : Fe32} {version : WitnessVersion} :
    (WitnessVersion.tryFromU8 (UInt8.ofNat fe.val)).toOption = some version ↔ fe = toFe version := by
  have small : (UInt8.ofNat fe.val).toNat = fe.val :=
    UInt8.toNat_ofNat_of_lt' (Nat.lt_trans fe.isLt (by decide))
  constructor
  · intro read
    rcases parsed : WitnessVersion.tryFromU8 (UInt8.ofNat fe.val) with e | other
    · simp [parsed, Except.toOption] at read
    · obtain rfl : other = version := by simpa [parsed, Except.toOption] using read
      apply Fin.ext
      have number := congrArg UInt8.toNat (WitnessVersion.toNum_tryFromU8 parsed)
      exact (number.trans small).symm
  · rintro rfl
    have value : UInt8.ofNat (toFe version).val = version.toNum := UInt8.ofNat_toNat
    rw [value, WitnessVersion.tryFromU8_toNum]
    rfl

/-- The human-readable parts of addresses. -/
theorem plain_toHrp (known : KnownHrp) : PlainHrp known.toHrp ∧ known.toHrp.length ≤ 7 := by
  cases known <;> decide +kernel

theorem plain_mwebHrpFor (network : NetworkKind) :
    PlainHrp (mwebHrpFor network) ∧ (mwebHrpFor network).length ≤ 7 := by
  cases network <;> decide +kernel

theorem mwebNetwork_toHrp (known : KnownHrp) : mwebNetwork known.toHrp = none := by
  cases known <;> decide

theorem mwebNetwork_eq_some {hrp : Bytes} {network : NetworkKind} :
    mwebNetwork hrp = some network ↔ hrp = mwebHrpFor network := by
  constructor
  · intro known
    unfold mwebNetwork at known
    split_ifs at known with main test
    · obtain rfl := Option.some.inj known
      exact main
    · obtain rfl := Option.some.inj known
      exact test
  · rintro rfl
    cases network <;> decide

theorem head_tail_eq_some {symbols : List Fe32} {fe : Fe32} {data : List Fe32} :
    symbols.head?.map (·, symbols.tail) = some (fe, data) ↔ symbols = fe :: data := by
  cases symbols <;> simp

/-- The checksum, human-readable part, first symbol and payload of an address in bech32. -/
structure Parts where
  kind : ChecksumKind
  hrp : Bytes
  version : Fe32
  payload : Bytes

variable [Secp256k1]

theorem stealthKey_eq_some {bytes : Bytes} {key : StealthKey} :
    stealthKey bytes = some key ↔ bytes = key.val.val := by
  constructor
  · intro read
    unfold stealthKey at read
    split_ifs at read with length valid
    obtain rfl := Option.some.inj read
    rfl
  · rintro rfl
    rw [stealthKey, dif_pos key.val.property, dif_pos key.property]

def parts : Address → Option Parts
  | segwit program hrp =>
    some ⟨checksumFor program.version, hrp.toHrp, toFe program.version, program.program⟩
  | mweb scan spend network => some ⟨.bech32, mwebHrpFor network, .q, scan.val.val ++ spend.val.val⟩
  | _ => none

variable [Bech32]

/-- A text has these parts: its symbols after the version and before a valid checksum spell the
payload. -/
def Parts.SpelledBy (parts : Parts) (s : Bytes) (data : List Fe32) : Prop :=
  ∃ symbols, uncheckedHrpstring s = some (parts.hrp, symbols) ∧
    hasValidChecksum parts.kind parts.hrp symbols = true ∧
    removeChecksum symbols = parts.version :: data ∧ fesToBytes data = parts.payload

omit [Secp256k1] in
theorem litecoinSegwitDecode_eq_some {s hrp program : Bytes} {version : WitnessVersion} :
    litecoinSegwitDecode s = some (hrp, version, program) ↔
      ∃ data, (Parts.mk (checksumFor version) hrp (toFe version) program).SpelledBy s data := by
  simp only [litecoinSegwitDecode, Option.bind_eq_bind, Option.bind_eq_some_iff, Prod.exists,
    Parts.SpelledBy]
  constructor
  · rintro ⟨hrp', symbols, unchecked, valid⟩
    split_ifs at valid with neither
    simp only [Option.bind_eq_some_iff, Prod.exists, head_tail_eq_some] at valid
    obtain ⟨fe, data, shape, v, read, rest⟩ := valid
    obtain rfl := tryFromU8_toFe.mp read
    split_ifs at rest with wrong wrong'
    obtain ⟨rfl, rfl, rfl⟩ : hrp' = hrp ∧ v = version ∧ fesToBytes data = program := by
      simpa using rest
    refine ⟨data, symbols, unchecked, ?_, shape, rfl⟩
    unfold checksumFor
    split
    · next uses => simpa [uses] using wrong
    · next uses =>
      rw [Bool.not_eq_true] at uses
      simpa [uses] using wrong'
  · rintro ⟨data, symbols, unchecked, valid, shape, rfl⟩
    refine ⟨hrp, symbols, unchecked, ?_⟩
    unfold checksumFor at valid
    have some' : ¬(hasValidChecksum .bech32 hrp symbols = false ∧
        hasValidChecksum .bech32m hrp symbols = false) := by
      rintro ⟨one, two⟩
      split at valid
      · rw [one] at valid; exact absurd valid nofun
      · rw [two] at valid; exact absurd valid nofun
    rw [if_neg some']
    simp only [Option.bind_eq_some_iff, Prod.exists, head_tail_eq_some]
    refine ⟨toFe version, data, shape, version, tryFromU8_toFe.mpr rfl, ?_⟩
    split at valid
    · next uses => simp [uses, valid]
    · next uses =>
      rw [Bool.not_eq_true] at uses
      simp [uses, valid]

theorem litecoinMwebDecode_eq_some {s : Bytes} {scan spend : StealthKey} {network : NetworkKind} :
    litecoinMwebDecode s = some (scan, spend, network) ↔
      ∃ data, (Parts.mk .bech32 (mwebHrpFor network) 0 (scan.val.val ++ spend.val.val)).SpelledBy
        s data := by
  simp only [litecoinMwebDecode, Option.bind_eq_bind, Option.bind_eq_some_iff, Prod.exists,
    Parts.SpelledBy]
  constructor
  · rintro ⟨hrp, symbols, unchecked, network', known, valid⟩
    split_ifs at valid with invalid
    simp only [Option.bind_eq_some_iff, Prod.exists, head_tail_eq_some] at valid
    obtain ⟨fe, data, shape, valid⟩ := valid
    split_ifs at valid with version length
    simp only [Option.bind_eq_some_iff, stealthKey_eq_some] at valid
    obtain ⟨scan', front, spend', back, same⟩ := valid
    obtain ⟨rfl, rfl, rfl⟩ : scan' = scan ∧ spend' = spend ∧ network' = network := by
      simpa using same
    obtain rfl := mwebNetwork_eq_some.mp known
    obtain rfl : fe = 0 := Fin.ext (not_not.mp version)
    refine ⟨data, symbols, unchecked, by simpa using invalid, shape, ?_⟩
    rw [← front, ← back, List.take_append_drop]
  · rintro ⟨data, symbols, unchecked, valid, shape, payload⟩
    have length : (fesToBytes data).length = 66 := by
      rw [payload, List.length_append, scan.val.property, spend.val.property]
    refine ⟨_, symbols, unchecked, network, mwebNetwork_eq_some.mpr rfl, ?_⟩
    rw [if_neg (by simp [valid])]
    simp only [Option.bind_eq_some_iff, Prod.exists, head_tail_eq_some]
    refine ⟨0, data, shape, ?_⟩
    rw [if_neg (by decide), if_neg (by rw [length]; decide)]
    simp only [Option.bind_eq_some_iff, stealthKey_eq_some]
    refine ⟨scan, ?_, spend, ?_, rfl⟩
    · rw [payload, List.take_left' scan.val.property]
    · rw [payload, List.drop_left' scan.val.property]

omit [Secp256k1] in
theorem Parts.SpelledBy.hrp_eq {one two : Parts} {data other : List Fe32} (first : one.SpelledBy s data)
    (second : two.SpelledBy s other) : one.hrp = two.hrp := by
  obtain ⟨symbols, unchecked, -⟩ := first
  obtain ⟨symbols', unchecked', -⟩ := second
  exact (Prod.mk.inj (Option.some.inj (unchecked.symm.trans unchecked'))).1

variable [Hashes]

omit [Bech32] in
/-- Legacy text is never read as an address in bech32. -/
theorem legacyFromStr_parts {s : Bytes} {address : Address}
    (read : (legacyFromStr s).run = some (.ok address)) : address.parts = none := by
  have either {p : Prop} [Decidable p] {yes no : ExceptT ParseError Option Address}
      (left : yes.run = some (.ok address) → address.parts = none)
      (right : no.run = some (.ok address) → address.parts = none)
      (read : (if p then yes else no).run = some (.ok address)) : address.parts = none := by
    split at read
    · exact left read
    · exact right read
  have known {hashed : Address} (legacy : hashed.parts = none)
      (read : (pure hashed : ExceptT ParseError Option Address).run = some (.ok address)) :
      address.parts = none := by
    obtain rfl := run_pure_eq_ok.mp read
    exact legacy
  have refused {e : ParseError}
      (read : (throw e : ExceptT ParseError Option Address).run = some (.ok address)) :
      address.parts = none :=
    absurd (Option.some.inj read) nofun
  rw [legacyFromStr] at read
  refine either refused (fun read => ?_) read
  obtain ⟨data, -, read⟩ := run_bind_eq_ok.mp read
  by_cases whole : data.length = 21
  · rw [dif_pos whole] at read
    revert read
    iterate 6 refine either (known rfl) ?_
    exact refused
  · rw [dif_neg whole] at read
    exact refused read

/-- A text is read as an address in bech32 exactly when it spells the parts of that address. -/
theorem fromStr_eq_ok_iff {s : Bytes} {address : Address} {its : Parts} (bech32 : address.parts = some its) :
    (fromStr s).run = some (.ok address) ↔ ∃ data, its.SpelledBy s data := by
  constructor
  · intro read
    unfold fromStr at read
    split at read
    · next scan spend network decoded =>
      obtain rfl := Except.ok.inj (Option.some.inj read)
      obtain rfl := Option.some.inj bech32
      exact litecoinMwebDecode_eq_some.mp decoded
    · split at read
      · next decoded =>
        obtain ⟨program, built, read⟩ := run_bind_eq_ok.mp read
        obtain ⟨known, found, read⟩ := run_bind_eq_ok.mp read
        obtain rfl := run_pure_eq_ok.mp read
        obtain rfl := Option.some.inj bech32
        obtain ⟨rfl, rfl⟩ := WitnessProgram.new_eq_ok.mp (run_liftM_mapError_eq_ok.mp built)
        obtain rfl := KnownHrp.fromHrp_eq_ok.mp (run_liftM_mapError_eq_ok.mp found)
        exact litecoinSegwitDecode_eq_some.mp decoded
      · rw [legacyFromStr_parts read] at bech32
        exact absurd bech32 nofun
  · rintro ⟨data, spelled⟩
    cases address with
    | p2pkh hash network => exact absurd bech32 nofun
    | p2sh hash network => exact absurd bech32 nofun
    | segwit program hrp =>
      obtain rfl := Option.some.inj bech32
      have notMweb : litecoinMwebDecode s = none := by
        refine Option.eq_none_iff_forall_ne_some.mpr fun ⟨scan, spend, network⟩ decoded => ?_
        obtain ⟨other, mweb⟩ := litecoinMwebDecode_eq_some.mp decoded
        have unknown := mwebNetwork_toHrp hrp
        rw [mwebNetwork_eq_some.mpr (spelled.hrp_eq mweb)] at unknown
        exact absurd unknown nofun
      rw [fromStr, notMweb, litecoinSegwitDecode_eq_some.mpr ⟨data, spelled⟩]
      simp only [WitnessProgram.new_eq_ok.mpr (⟨rfl, rfl⟩ : program.version = _ ∧ program.program = _),
        KnownHrp.fromHrp_eq_ok.mpr (rfl : hrp.toHrp = _)]
      rfl
    | mweb scan spend network =>
      obtain rfl := Option.some.inj bech32
      rw [fromStr, litecoinMwebDecode_eq_some.mpr ⟨data, spelled⟩]
      rfl

/-- The text of an address in bech32, in lower case. -/
def Parts.text (its : Parts) : Bytes :=
  Bech32.encode its.kind its.hrp its.version (bytesToFes its.payload)

theorem display_of_parts {address : Address} {its : Parts} (bech32 : address.parts = some its)
    (alternate : Bool) :
    address.display alternate = some (if alternate then upper its.text else its.text) := by
  cases address with
  | p2pkh hash network => exact absurd bech32 nofun
  | p2sh hash network => exact absurd bech32 nofun
  | segwit program hrp =>
    obtain rfl := Option.some.inj bech32
    simp only [display, litecoinSegwitEncodeUpper, litecoinSegwitEncodeLower, Parts.text, checksumFor]
    cases alternate <;> cases litecoinUsesBech32 program.version <;> rfl
  | mweb scan spend network =>
    obtain rfl := Option.some.inj bech32
    cases alternate <;> rfl

omit [Bech32] [Hashes] in
theorem parts_bounds {address : Address} {its : Parts} (bech32 : address.parts = some its) :
    PlainHrp its.hrp ∧ its.hrp.length ≤ 7 ∧ its.payload.length ≤ 66 := by
  cases address with
  | p2pkh hash network => exact absurd bech32 nofun
  | p2sh hash network => exact absurd bech32 nofun
  | segwit program hrp =>
    obtain rfl := Option.some.inj bech32
    exact ⟨(plain_toHrp hrp).1, (plain_toHrp hrp).2, Nat.le_trans program.most (by decide)⟩
  | mweb scan spend network =>
    obtain rfl := Option.some.inj bech32
    refine ⟨(plain_mwebHrpFor network).1, (plain_mwebHrpFor network).2, ?_⟩
    rw [List.length_append, scan.val.property, spend.val.property]

section Lawful
variable [Bech32.Lawful]

omit [Hashes] in
/-- The text of an address in bech32, in either case, spells its parts. -/
theorem spelledBy_text {address : Address} {its : Parts} (bech32 : address.parts = some its) (alternate : Bool) :
    its.SpelledBy (if alternate then upper its.text else its.text) (bytesToFes its.payload) := by
  obtain ⟨plain, short, payload⟩ := parts_bounds bech32
  let data := its.version :: bytesToFes its.payload
  obtain ⟨inLower, inUpper⟩ := Lawful.hrpstring_text plain (data ++ checksum its.kind its.hrp data)
  refine ⟨data ++ checksum its.kind its.hrp data, ?_, ?_, removeChecksum_append _ _ _,
    fesToBytes_bytesToFes _⟩
  · cases alternate with
    | false => exact inLower
    | true => exact inUpper
  · apply Lawful.valid_computed
    have symbols := length_bytesToFes_le its.payload
    have whole := length_of_hrpstring inLower
    rw [List.length_append, Lawful.length_checksum, List.length_cons] at whole
    omega

/-- Every address in bech32 is read back from both forms of its text. -/
theorem fromStr_display_bech32 {address : Address} {its : Parts} (bech32 : address.parts = some its)
    (alternate : Bool) : ∃ text, address.display alternate = some text ∧
      (fromStr text).run = some (.ok address) :=
  ⟨_, display_of_parts bech32 alternate, (fromStr_eq_ok_iff bech32).mpr ⟨_, spelledBy_text bech32 alternate⟩⟩

omit [Secp256k1] [Hashes] in
theorem Parts.SpelledBy.lower_eq {its : Parts} {s : Bytes} {data : List Fe32} (spelled : its.SpelledBy s data) :
    lower s = Bech32.encode its.kind its.hrp its.version data := by
  obtain ⟨symbols, unchecked, valid, shape, -⟩ := spelled
  obtain ⟨checked, rfl⟩ := Lawful.computed_of_valid valid
  rw [removeChecksum_append] at shape
  rw [Lawful.text_of_hrpstring unchecked, shape]
  rfl

/-- A text is that of its address, up to case, exactly when its symbols are padded the way the
encoder pads. -/
theorem display_eq_iff_padded {address : Address} {its : Parts} (bech32 : address.parts = some its) {s : Bytes}
    {data : List Fe32} (spelled : its.SpelledBy s data) :
    (∃ text, address.display false = some text ∧ lower text = lower s) ↔ Padded data := by
  have plain := (parts_bounds bech32).1
  have payload : fesToBytes data = its.payload := by
    obtain ⟨symbols, -, -, -, payload⟩ := spelled
    exact payload
  rw [display_of_parts bech32, ← bytesToFes_fesToBytes, payload]
  simp only [Bool.false_eq_true, if_false, Option.some.injEq, exists_eq_left']
  rw [spelled.lower_eq, Parts.text, Bech32.encode, lower_text plain, Bech32.encode, text_inj plain]
  constructor
  · intro same
    have front := List.append_inj' same (by rw [Lawful.length_checksum, Lawful.length_checksum])
    exact (List.cons.inj front.1).2
  · intro same
    rw [same]

/-- The prefix and hash of a legacy address. -/
def legacyPayload : Address → Option Bytes
  | p2pkh hash network => some (pubkeyAddressPrefix network :: hash.val)
  | p2sh hash network => some (scriptAddressPrefix network :: hash.val)
  | _ => none

omit [Bech32] [Hashes] [Bech32.Lawful] in
/-- An address is written in bech32 or in base58. -/
theorem parts_or_legacyPayload (address : Address) :
    (∃ its, address.parts = some its) ∨ ∃ payload, address.legacyPayload = some payload := by
  cases address with
  | p2pkh hash network => exact .inr ⟨_, rfl⟩
  | p2sh hash network => exact .inr ⟨_, rfl⟩
  | segwit program hrp => exact .inl ⟨_, rfl⟩
  | mweb scan spend network => exact .inl ⟨_, rfl⟩

omit [Bech32.Lawful] in
theorem display_of_legacyPayload {address : Address} {payload : Bytes}
    (legacy : address.legacyPayload = some payload) (alternate : Bool) :
    address.display alternate = Base58.encodeCheck true payload := by
  cases address with
  | p2pkh hash network => exact congrArg (Base58.encodeCheck true) (Option.some.inj legacy)
  | p2sh hash network => exact congrArg (Base58.encodeCheck true) (Option.some.inj legacy)
  | segwit program hrp => exact absurd legacy nofun
  | mweb scan spend network => exact absurd legacy nofun

omit [Secp256k1] [Bech32] [Bech32.Lawful] in
theorem length_encodeCheck_le {leading : UInt8} {hash : ByteArr 20} {text : Bytes} (nonzero : leading ≠ 0)
    (encoded : Base58.encodeCheck true (leading :: hash.val) = some text) : text.length ≤ 50 := by
  have shape : Base58.checked (leading :: hash.val) =
      leading :: (hash.val ++ (Hashes.sha256d (leading :: hash.val)).val.take 4) := rfl
  have bound := Base58.length_encode_le shape nonzero encoded
  rw [Base58.checked, List.length_append, Base58.length_checksum, List.length_cons, hash.property] at bound
  exact bound

omit [Bech32] [Bech32.Lawful] in
/-- What `from_str` makes of a short base58 text of 21 bytes. -/
theorem legacyFromStr_of_decoded {leading : UInt8} {hash : ByteArr 20} {text : Bytes}
    (short : text.length ≤ 50) (decoded : (Base58.decodeCheck text).run = some (.ok (leading :: hash.val))) :
    legacyFromStr text =
      if leading = 48 then pure (p2pkh hash .main)
      else if leading = 111 then pure (p2pkh hash .test)
      else if leading = 50 then pure (p2sh hash .main)
      else if leading = 58 then pure (p2sh hash .test)
      else if leading = 0x05 then pure (p2sh hash .main)
      else if leading = 0xc4 then pure (p2sh hash .test)
      else throw (.invalidLegacyPrefix leading) := by
  have whole : (leading :: hash.val).length = 21 := by rw [List.length_cons, hash.property]
  rw [legacyFromStr, if_neg (by omega), decoded]
  show dite _ _ _ = _
  rw [dif_pos whole]
  rfl

omit [Bech32] [Hashes] [Bech32.Lawful] in
theorem length_legacyPayload {address : Address} {payload : Bytes}
    (legacy : address.legacyPayload = some payload) : payload.length < 100 := by
  cases address with
  | p2pkh hash network | p2sh hash network =>
    obtain rfl := Option.some.inj legacy
    rw [List.length_cons, hash.property]
    decide
  | segwit program hrp => exact absurd legacy nofun
  | mweb scan spend network => exact absurd legacy nofun

omit [Bech32] [Bech32.Lawful] in
theorem legacyFromStr_encodeCheck {address : Address} {payload text : Bytes}
    (legacy : address.legacyPayload = some payload) (encoded : Base58.encodeCheck true payload = some text) :
    text.length ≤ 50 ∧ (legacyFromStr text).run = some (.ok address) := by
  have decoded := (Base58.decodeCheck_eq_ok_iff (length_legacyPayload legacy)).mpr encoded
  cases address with
  | p2pkh hash network =>
    obtain rfl := Option.some.inj legacy
    have short := length_encodeCheck_le (by cases network <;> decide) encoded
    refine ⟨short, ?_⟩
    rw [legacyFromStr_of_decoded short decoded]
    cases network <;> rfl
  | p2sh hash network =>
    obtain rfl := Option.some.inj legacy
    have short := length_encodeCheck_le (by cases network <;> decide) encoded
    refine ⟨short, ?_⟩
    rw [legacyFromStr_of_decoded short decoded]
    cases network <;> rfl
  | segwit program hrp => exact absurd legacy nofun
  | mweb scan spend network => exact absurd legacy nofun

omit [Hashes] in
/-- No stealth address is as short as a legacy address. -/
theorem litecoinMwebDecode_short {s : Bytes} (short : s.length ≤ 50) : litecoinMwebDecode s = none := by
  refine Option.eq_none_iff_forall_ne_some.mpr fun ⟨scan, spend, network⟩ decoded => ?_
  obtain ⟨data, symbols, unchecked, -, shape, payload⟩ := litecoinMwebDecode_eq_some.mp decoded
  have bytes := congrArg List.length payload
  rw [length_fesToBytes, List.length_append, scan.val.property, spend.val.property] at bytes
  have whole := length_of_hrpstring unchecked
  have taken := congrArg List.length shape
  rw [removeChecksum, List.length_take, List.length_cons] at taken
  omega

/-- A text in bech32 is never read as a legacy address. -/
theorem fromStr_legacy_iff {address : Address} {payload text : Bytes}
    (legacy : address.legacyPayload = some payload) (encoded : Base58.encodeCheck true payload = some text) :
    (fromStr text).run = some (.ok address) ↔ litecoinSegwitDecode text = none := by
  obtain ⟨short, read⟩ := legacyFromStr_encodeCheck legacy encoded
  rw [fromStr, litecoinMwebDecode_short short]
  constructor
  · intro accepted
    rcases decoded : litecoinSegwitDecode text with _ | ⟨hrp, version, data⟩
    · rfl
    · rw [decoded] at accepted
      obtain ⟨program, -, accepted⟩ := run_bind_eq_ok.mp accepted
      obtain ⟨known, -, accepted⟩ := run_bind_eq_ok.mp accepted
      obtain rfl := run_pure_eq_ok.mp accepted
      exact absurd legacy nofun
  · intro other
    rw [other]
    exact read

/-- The text of the address, plain or alternate, is read as the address. -/
def ReadsBack (address : Address) : Prop :=
  ∀ alternate, ∃ text, address.display alternate = some text ∧ (fromStr text).run = some (.ok address)

/-- The base58 text of a legacy address is not itself a string in bech32. -/
def LegacyTextOnly (address : Address) : Prop :=
  ∀ payload text, address.legacyPayload = some payload → Base58.encodeCheck true payload = some text →
    litecoinSegwitDecode text = none

/-- The symbols of a string between the version and the checksum end in fewer than five bits
of padding, all zero. -/
def PaddedText (s : Bytes) : Prop :=
  ∀ hrp symbols, uncheckedHrpstring s = some (hrp, symbols) → Padded (removeChecksum symbols).tail

theorem readsBack_iff (address : Address) : address.ReadsBack ↔ address.LegacyTextOnly := by
  rcases parts_or_legacyPayload address with ⟨its, bech32⟩ | ⟨payload, legacy⟩
  · refine iff_of_true (fromStr_display_bech32 bech32) fun payload text legacy => ?_
    cases address with
    | p2pkh hash network => exact absurd bech32 nofun
    | p2sh hash network => exact absurd bech32 nofun
    | segwit program hrp => exact absurd legacy nofun
    | mweb scan spend network => exact absurd legacy nofun
  · obtain ⟨text, encoded⟩ := @Base58.encodeCheck_returns _ true _ (length_legacyPayload legacy)
    have display := fun alternate => (display_of_legacyPayload legacy alternate).trans encoded
    have alike := fromStr_legacy_iff legacy encoded
    constructor
    · intro back payload' text' legacy' encoded'
      obtain rfl := Option.some.inj (legacy.symm.trans legacy')
      obtain rfl := Option.some.inj (encoded.symm.trans encoded')
      obtain ⟨shown, display', read⟩ := back false
      obtain rfl := Option.some.inj ((display false).symm.trans display')
      exact alike.mp read
    · intro only alternate
      exact ⟨text, display alternate, alike.mpr (only payload text legacy encoded)⟩

/-- A text that is read as an address in bech32 is the text of that address, up to case,
exactly when it is padded. -/
theorem display_eq_iff {s : Bytes} {address : Address} (read : (fromStr s).run = some (.ok address))
    (bech32 : address.parts.isSome) :
    (∃ text, address.display false = some text ∧ lower text = lower s) ↔ PaddedText s := by
  obtain ⟨its, bech32⟩ := Option.isSome_iff_exists.mp bech32
  obtain ⟨data, spelled⟩ := (fromStr_eq_ok_iff bech32).mp read
  rw [display_eq_iff_padded bech32 spelled]
  obtain ⟨symbols, unchecked, -, shape, -⟩ := spelled
  constructor
  · intro padded hrp' symbols' unchecked'
    obtain ⟨-, rfl⟩ := Prod.mk.inj (Option.some.inj (unchecked.symm.trans unchecked'))
    rwa [shape, List.tail_cons]
  · intro padded
    have here := padded _ _ unchecked
    rwa [shape, List.tail_cons] at here

/-- Address text is canonical as far as the padding of the symbols is: an address is read back
from both forms of its text unless it is a legacy address whose base58 text is a bech32 string
of its own; a string read as a segwit or stealth address is the text of that address, up to
case, if and only if its padding is what the encoder writes; and no two such strings that
differ beyond case denote one address. -/
theorem text_canonical_iff_padded :
    (∀ address : Address, address.ReadsBack ↔ address.LegacyTextOnly) ∧
    (∀ (s : Bytes) (address : Address), (fromStr s).run = some (.ok address) → address.parts.isSome →
      ((∃ text, address.display false = some text ∧ lower text = lower s) ↔ PaddedText s)) ∧
    ∀ (s t : Bytes) (address : Address), (fromStr s).run = some (.ok address) →
      (fromStr t).run = some (.ok address) → address.parts.isSome → PaddedText s → PaddedText t →
      lower s = lower t := by
  refine ⟨readsBack_iff, fun s address => display_eq_iff, ?_⟩
  intro s t address first second bech32 paddedFirst paddedSecond
  obtain ⟨text, display, same⟩ := (display_eq_iff first bech32).mpr paddedFirst
  obtain ⟨text', display', same'⟩ := (display_eq_iff second bech32).mpr paddedSecond
  obtain rfl := Option.some.inj (display.symm.trans display')
  exact same.symm.trans same'

end Lawful
end Address

namespace Address.Sample
attribute [local instance] Secp256k1.generatorOnly Hashes.ofEmpty

/-- The key hash of the documentation of `to_qr_uri`. -/
def keyHash : WitnessProgram where
  version := .v0
  program := [0x75, 0x1e, 0x76, 0xe8, 0x19, 0x91, 0x96, 0xd4, 0x54, 0x94, 0x1c, 0x45, 0xd1, 0xb3, 0xa3, 0x23,
    0xf1, 0x43, 0x3b, 0xd6]
  least := by decide
  most := by decide
  segwitV0 := fun _ => .inl rfl

def address : Address := .segwit keyHash .mainnet

def plainText : Bytes := ascii "ltc1qw508d6qejxtdg4y5r3zarvary0c5xw7kgmn4n9"

def qrText : Bytes := ascii "LTC1QW508D6QEJXTDG4Y5R3ZARVARY0C5XW7KGMN4N9"

/-- The same address with one more symbol before the checksum. -/
def surplusText : Bytes := ascii "ltc1qw508d6qejxtdg4y5r3zarvary0c5xw7kq983l6u"

theorem displayed : address.display false = some plainText ∧ address.display true = some qrText ∧
    lower plainText = lower qrText ∧ lower plainText ≠ lower surplusText := by
  decide +kernel

theorem fromStr_displayed {alternate : Bool} {text : Bytes}
    (display : address.display alternate = some text) : (fromStr text).run = some (.ok address) := by
  obtain ⟨its, bech32⟩ := Option.isSome_iff_exists.mp (rfl : address.parts.isSome)
  obtain ⟨text', display', read⟩ := fromStr_display_bech32 bech32 alternate
  obtain rfl := Option.some.inj (display.symm.trans display')
  exact read

/-- The two forms of the text of an address, both padded. -/
theorem address_text_canonical :
    address.LegacyTextOnly ∧ PaddedText plainText ∧ PaddedText qrText ∧ lower plainText = lower qrText := by
  obtain ⟨back, padded, unique⟩ := text_canonical_iff_padded
  obtain ⟨plain, qr, same, -⟩ := displayed
  have read := fromStr_displayed plain
  have read' := fromStr_displayed qr
  have first := (padded plainText address read rfl).mp ⟨_, plain, rfl⟩
  have second := (padded qrText address read' rfl).mp ⟨_, plain, same⟩
  refine ⟨(back address).mp fun alternate => ?_, first, second,
    unique _ _ address read read' rfl first second⟩
  cases alternate with
  | false => exact ⟨_, plain, read⟩
  | true => exact ⟨_, qr, read'⟩

/-- A surplus symbol gives the address a second spelling. -/
theorem surplus_symbol_accepted :
    ¬∀ (s : Bytes) (address : Address), (fromStr s).run = some (.ok address) → address.parts.isSome →
      ∃ text, address.display false = some text ∧ lower text = lower s := by
  intro canonical
  have read : (fromStr surplusText).run = some (.ok address) := by decide +kernel
  obtain ⟨plain, -, -, apart⟩ := displayed
  obtain ⟨text, display, same⟩ := canonical surplusText address read rfl
  obtain rfl := Option.some.inj (plain.symm.trans display)
  exact apart same

end Address.Sample
end Litecoin
