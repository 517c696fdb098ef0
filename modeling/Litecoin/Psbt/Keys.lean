import Litecoin.Psbt.Global
import Litecoin.Wire.Merge

/-! A PSBT as the values it holds for keys: typed fields, map entries, and the fields of
the indexed MWEB maps. The number of kernels is no key of its own. -/
namespace Litecoin.Psbt
open Wire Consensus Bip32

namespace Shape

/-- What tells the values of one field apart. -/
def SubKey : Shape → Type
  | unkeyed _ => Unit
  | @keyed κ _ _ _ _ _ _ => κ

def Content : Shape → Type
  | @unkeyed α _ => α
  | @keyed _ α _ _ _ _ _ => α

/-- `BTreeMap::get`. -/
def get [Ord κ] [Std.TransOrd κ] (map : BTreeMap κ α) (key : κ) : Option α := map[key]?

def lookup : (shape : Shape) → shape.Slot → shape.SubKey → Option shape.Content
  | unkeyed _ => fun slot _ => slot
  | keyed _ _ => get

theorem lookup_empty (shape : Shape) (key : shape.SubKey) : shape.lookup shape.empty key = none := by
  cases shape with
  | unkeyed value => rfl
  | @keyed κ α _ _ _ _ _ => exact Std.ExtTreeMap.getElem?_empty (α := κ) (β := α)

theorem ext {shape : Shape} {slot other : shape.Slot}
    (same : ∀ key, shape.lookup slot key = shape.lookup other key) : slot = other := by
  cases shape with
  | unkeyed value => exact same ()
  | keyed key value => exact Std.ExtTreeMap.ext_getElem? fun k => same k

end Shape

section
variable {G : Type} {mweb : MwebTable G}

/-- The keys of a map. -/
inductive MapKey (table : MapTable F mweb.Record) where
  | field (f : F) (key : (table.shape f).SubKey)
  | proprietary (key : ProprietaryKey)
  | unknown (key : Key)
  | mweb (g : G)

def MapKey.Value {table : MapTable F mweb.Record} : MapKey table → Type
  | .field f _ => (table.shape f).Content
  | .proprietary _ | .unknown _ => Bytes
  | .mweb g => mweb.Content g

def FieldMap.lookup {table : MapTable F mweb.Record} (map : FieldMap table) :
    (key : MapKey table) → Option key.Value
  | .field f key => (table.shape f).lookup (map.fields f) key
  | .proprietary key => map.proprietary[key]?
  | .unknown key => map.unknown[key]?
  | .mweb g => map.mweb g

theorem FieldMap.ext {table : MapTable F mweb.Record} {map other : FieldMap table}
    (same : ∀ key, map.lookup key = other.lookup key) : map = other := by
  obtain ⟨fields, proprietary, unknown, mwebMap⟩ := map
  obtain ⟨fields', proprietary', unknown', mwebMap'⟩ := other
  congr
  · funext f
    exact Shape.ext fun key => same (.field f key)
  · exact Std.ExtTreeMap.ext_getElem? fun key => same (.proprietary key)
  · exact Std.ExtTreeMap.ext_getElem? fun key => same (.unknown key)
  · funext g
    exact same (.mweb g)

end
variable [Secp256k1] [Hashes]

abbrev Input.MapKey : Type := Psbt.MapKey Input.table
abbrev Output.MapKey : Type := Psbt.MapKey Output.table

/-- The keys of a PSBT besides the unsigned transaction. -/
inductive PsbtKey where
  | version
  | xpub (key : Xpub)
  | proprietary (key : ProprietaryKey)
  | unknown (key : Key)
  | mwebTxOffset
  | mwebStealthOffset
  | kernelField (index : Nat) (f : MwebKernel.Field)
  | kernelPegout (index position : Nat)
  | kernelUnknown (index : Nat) (key : Bytes)
  | mwebInput (index : Nat) (f : MwebInput.Field)
  | mwebOutput (index : Nat) (f : MwebOutput.Field)
  | input (index : Nat) (key : Input.MapKey)
  | output (index : Nat) (key : Output.MapKey)

def PsbtKey.Value : PsbtKey → Type
  | .version => UInt32
  | .xpub _ => KeySource
  | .proprietary _ | .unknown _ => Bytes
  | .mwebTxOffset | .mwebStealthOffset => ByteArr 32
  | .kernelField _ f => MwebKernel.table.Content f
  | .kernelPegout _ _ | .kernelUnknown _ _ => Bytes
  | .mwebInput _ f => MwebInput.table.Content f
  | .mwebOutput _ f => MwebOutput.table.Content f
  | .input _ key => key.Value
  | .output _ key => key.Value

def inputAt (psbt : Psbt) (i : Nat) : Input := psbt.inputs.getD i (FieldMap.default Input.table)

def outputAt (psbt : Psbt) (i : Nat) : Output := psbt.outputs.getD i (FieldMap.default Output.table)

def kernelAt (psbt : Psbt) (i : Nat) : MwebKernel := psbt.mwebKernels.getD i MwebKernel.default

def mwebInputAt (psbt : Psbt) (i : Nat) : MwebInput := psbt.mwebInputs.getD i MwebInput.table.empty

def mwebOutputAt (psbt : Psbt) (i : Nat) : MwebOutput :=
  psbt.mwebOutputs.getD i MwebOutput.table.empty

/-- The PSBT has the key with that value. The version is only written above 0, and the
unknown pairs of a kernel are a list that may repeat a key. -/
def Holds (psbt : Psbt) : (key : PsbtKey) → key.Value → Prop
  | .version => fun value => psbt.version = value ∧ 0 < psbt.version
  | .xpub key => fun value => psbt.xpub[key]? = some value
  | .proprietary key => fun value => psbt.proprietary[key]? = some value
  | .unknown key => fun value => psbt.unknown[key]? = some value
  | .mwebTxOffset => fun value => psbt.mwebTxOffset = some value
  | .mwebStealthOffset => fun value => psbt.mwebStealthOffset = some value
  | .kernelField i f => fun value => (psbt.kernelAt i).fields f = some value
  | .kernelPegout i j => fun value => (psbt.kernelAt i).pegouts[j]? = some value
  | .kernelUnknown i key => fun value => (key, value) ∈ (psbt.kernelAt i).unknowns
  | .mwebInput i f => fun value => psbt.mwebInputAt i f = some value
  | .mwebOutput i f => fun value => psbt.mwebOutputAt i f = some value
  | .input i key => fun value => (psbt.inputAt i).lookup key = some value
  | .output i key => fun value => (psbt.outputAt i).lookup key = some value

/-- The key is present. -/
def Has (psbt : Psbt) (key : PsbtKey) : Prop := ∃ value, psbt.Holds key value

end Litecoin.Psbt
