import Litecoin.Consensus.IterReader
import Litecoin.Io.Cut
import Litecoin.P2p.Relay

/-! Messages over a connection: frames that a peer writes one after another, and what is received of
them, however the stream cuts its bytes into pieces and wherever it ends. -/
namespace Litecoin
open Wire Consensus Io

/-- Errors of its own may be any for a decoder that reads a part of its input from memory. -/
abbrev Framed (d : Decoder Error α) : Type := Programmed (.io .unexpectedEof) (fun _ => True) (2 ^ 64) d

theorem Wire.Program.Proper.weaken {p : Program ε α} {Own Own' : ε → Prop} (own : ∀ e, Own e → Own' e)
    (proper : p.Proper Own bound) : p.Proper Own' bound := by
  induction p with
  | done a => trivial
  | fail e => exact own e proper
  | read n next ih => exact ⟨proper.1, fun chunk => ih chunk (proper.2 chunk)⟩

def Consensus.Streamed.framed {d : Decoder Error α} (streamed : Streamed d) : Framed d :=
  ⟨streamed.program, streamed.slice_eq, streamed.proper.weaken fun _ _ => trivial⟩

def Wire.Programmed.ofExcept {eof : ε} (result : Except ε α) :
    Programmed eof (fun _ => True) bound (Decoder.ofExcept result) where
  program := match result with
    | .ok a => .done a
    | .error e => .fail e
  slice_eq := by
    cases result with
    | ok a => rfl
    | error e => rfl
  proper := by
    cases result with
    | ok a => trivial
    | error e => trivial

theorem checksum_small : 4 < 2 ^ 64 := by decide

theorem announced_small (len : UInt32) : len.toNat < 2 ^ 64 := len.toNat_lt.trans (by decide)

section
variable [Hashes]

def Consensus.CheckedData.framed : Framed CheckedData.consensusDecodeFromFiniteReader :=
  readU32_streamed.framed.bind fun len =>
    (readExact_streamed 4 checksum_small).framed.bind fun _ =>
    (readChunks_streamed _ _ _ _ _ (announced_small len)).framed.bind fun _ =>
    .ite (fun _ => .fail _ trivial) fun _ => .pure _

namespace P2p

omit [Hashes] in
def CommandString.streamed : Streamed CommandString.consensusDecode :=
  (readExact_streamed 12 (by decide)).bind fun _ => .pure _

variable [Secp256k1] [Layout]

namespace RawNetworkMessage

def framed : Framed consensusDecodeFromFiniteReader :=
  (readExact_streamed 4 checksum_small).framed.bind fun _ =>
    CommandString.streamed.framed.bind fun _ =>
    CheckedData.framed.bind fun _ => (Programmed.ofExcept _).bind fun _ => .pure _

/-- `consensus_decode` of a stream. -/
def receive (target : Target) [Read target σ] (fuel : Nat) (stream : σ) :
    Except (Halt Error) RawNetworkMessage × σ :=
  let ran := run target fuel framed.program (Reader.take (.ofNat maxMsgSize) (.source stream))
  (ran.1, ran.2.inner)

/-- So many messages, one after another. -/
def receiveAll (target : Target) [Read target σ] (fuel : Nat) : (count : Nat) → (stream : σ) →
    Except (Halt Error) (List RawNetworkMessage) × σ
  | 0, stream => (.ok [], stream)
  | count + 1, stream => match receive target fuel stream with
    | (.ok reply, stream) => match receiveAll target fuel count stream with
      | (.ok replies, stream) => (.ok (reply :: replies), stream)
      | (.error halt, stream) => (.error halt, stream)
    | (.error halt, stream) => (.error halt, stream)

/-- A peer writes the frame of a known message with a payload that its codec reads back. -/
structure WrittenAs (raw : RawNetworkMessage) (bytes : Bytes) : Prop where
  known : raw.payload.isUnknown = false
  back : raw.payload.PayloadRoundTrips
  made : RawNetworkMessage.new raw.magic raw.payload = some raw
  serialized : serialize raw.consensusEncode = .ok bytes
  small : bytes.length ≤ maxMsgSize

variable {raw : RawNetworkMessage} {bytes : Bytes}

/-- Such a frame is read as the message it was written for. -/
theorem WrittenAs.deserialized (written : WrittenAs raw bytes) :
    deserialize consensusDecodeFromFiniteReader bytes = .ok raw := by
  obtain ⟨image, d, encoded, arm, read⟩ := NetworkMessage.armsAgree written.known written.back
  have named := NetworkMessage.command_known written.known
  have plain : CommandString.Plain (CommandString.mk raw.payload.cmd).text :=
    NetworkMessage.plain_of_known _ (NetworkMessage.cmd_mem written.known)
  obtain rfl := Except.ok.inj
    (written.serialized.symm.trans (RawNetworkMessage.serialize_eq named plain encoded))
  have short := written.small
  rw [frame_length (CommandString.wire_length plain)] at short
  obtain ⟨raw', made, -, length, checksum, -⟩ := NetworkMessage.new_written raw.magic named plain encoded short
  obtain rfl := Option.some.inj (written.made.symm.trans made)
  refine (NetworkMessage.deserialize_frame plain length checksum).mpr fun fits => ?_
  rw [NetworkMessage.ofRawPayload, CommandString.text, arm]
  exact congrArg (Except.map Prod.fst) read

theorem WrittenAs.read (written : WrittenAs raw bytes) (rest : Bytes) :
    consensusDecodeFromFiniteReader (bytes ++ rest) = .ok (raw, rest) := by
  obtain ⟨command, data, length, checksum, parsed, same⟩ :=
    consensusDecode_eq_ok.mp (deserialize_eq_ok.mp written.deserialized)
  rw [consensusDecode_eq_ok]
  refine ⟨command, data, length, checksum, parsed, ?_⟩
  rw [same, List.append_nil]
  simp only [frame, List.append_assoc]

variable {target : Target} (wide : target.width = .w64)
include wide

theorem framed_proper : framed.program.Proper (fun _ => True) target.size := by
  rw [Target.size, wide]
  exact framed.proper

variable [Source target σ] {source : σ} (valid : Source.Valid target source) {fuel : Nat}
  (enough : Source.calls target source < fuel)
include valid enough

/-- A message at the front of what a source has left is received, and no byte more. -/
theorem receive_written {rest : Bytes} (written : WrittenAs raw bytes)
    (left : (Source.prospect target).left source = bytes ++ rest) :
    ∃ next, receive target fuel source = (.ok raw, next) ∧
      (Source.prospect target).Passes source bytes next ∧ (Source.prospect target).left next = rest := by
  have limit : (UInt64.ofNat maxMsgSize).toNat = maxMsgSize := UInt64.toNat_ofNat_of_lt' (by decide)
  have ran : framed.program.slice (.io .unexpectedEof)
      (((Source.prospect target).left source).take (UInt64.ofNat maxMsgSize).toNat) =
      .ok (raw, rest.take (maxMsgSize - bytes.length)) := by
    rw [framed.slice_eq, left, limit, List.take_append, List.take_of_length_le written.small]
    exact written.read _
  obtain ⟨front, next, run, passes, behind⟩ :=
    Source.run_limited (framed_proper wide) valid enough (.ofNat maxMsgSize) ran
  rw [left, limit, List.drop_append, List.drop_of_length_le written.small, List.nil_append,
    List.take_append_drop] at behind
  have split := Source.left_eq _ _ _ passes
  rw [left, behind, List.append_left_inj] at split
  subst split
  exact ⟨next.inner, by rw [receive, run], passes, behind⟩

/-- One message after another is received. -/
theorem receiveAll_written {sent : List RawNetworkMessage} {frames : List Bytes}
    (written : List.Forall₂ WrittenAs sent frames) {rest : Bytes}
    (left : (Source.prospect target).left source = frames.flatten ++ rest) :
    ∃ next, receiveAll target fuel sent.length source = (.ok sent, next) ∧
      (Source.prospect target).Passes source frames.flatten next ∧
      (Source.prospect target).left next = rest := by
  induction written generalizing source with
  | nil => exact ⟨source, rfl, Source.refl source valid, left⟩
  | cons first _ ih =>
    rw [List.flatten_cons, List.append_assoc] at left
    obtain ⟨middle, received, passes, behind⟩ := receive_written wide valid enough first left
    have fewer : Source.calls target middle < fuel := by
      have := Source.calls_le passes
      omega
    obtain ⟨next, others, onward, tail⟩ := ih (Source.valid _ _ _ passes) fewer behind
    refine ⟨next, ?_, Source.trans _ _ _ _ _ passes onward, tail⟩
    rw [List.length_cons, receiveAll, received]
    simp only [others]

/-- A frame that is cut off is waited for until the source ends or breaks. -/
theorem receive_cut {lost : Bytes} (written : WrittenAs raw bytes) (some' : lost ≠ [])
    (cut : bytes = (Source.prospect target).left source ++ lost) :
    ∃ next, receive target fuel source =
      (.error (.error (.io (((Source.prospect target).ending source).getD .unexpectedEof))), next) := by
  have limit : (UInt64.ofNat maxMsgSize).toNat = maxMsgSize := UInt64.toNat_ofNat_of_lt' (by decide)
  have below : ((Source.prospect target).left source).length < maxMsgSize := by
    have size := written.small
    have := List.length_pos_iff.mpr some'
    rw [cut, List.length_append] at size
    omega
  have behind : Source.Valid target (Reader.take (.ofNat maxMsgSize) (.source source)) := valid
  have fewer := Nat.lt_of_le_of_lt (Source.calls_take (.ofNat maxMsgSize) source) enough
  have starves : framed.program.Starves
      ((Source.prospect target).left (Reader.take (.ofNat maxMsgSize) (.source source))) := by
    change framed.program.Starves (((Source.prospect target).left source).take _)
    rw [limit, List.take_of_length_le (Nat.le_of_lt below)]
    have whole : framed.program.slice (.io .unexpectedEof)
        ((Source.prospect target).left source ++ lost ++ []) = .ok (raw, []) := by
      rw [framed.slice_eq, ← cut]
      exact written.read []
    exact Program.starves_of_cut some' whole
  obtain ⟨next, run⟩ := Source.run_starves (.io .unexpectedEof) (framed_proper wide) behind fewer starves
  have ends : (Source.prospect target).ending (Reader.take (.ofNat maxMsgSize) (.source source)) =
      (Source.prospect target).ending source := by
    change (if UInt64.toNat _ ≤ ((Source.prospect target).left source).length then _ else _) = _
    rw [limit, if_neg (Nat.not_le.mpr below)]
    rfl
  rw [ends] at run
  exact ⟨next.inner, by rw [receive, run]⟩

/-- A call reads of a source what it reads of a slice with the bytes that the source has left. -/
theorem receive_follows : ∃ ran,
    Source.Follows target (Error.io .unexpectedEof) (fun _ => True)
      (Reader.take (.ofNat maxMsgSize) (.source source))
      (consensusDecodeFromFiniteReader (((Source.prospect target).left source).take maxMsgSize)) ran ∧
    receive target fuel source = (ran.1, ran.2.inner) := by
  have limit : (UInt64.ofNat maxMsgSize).toNat = maxMsgSize := UInt64.toNat_ofNat_of_lt' (by decide)
  have behind : Source.Valid target (Reader.take (.ofNat maxMsgSize) (.source source)) := valid
  have fewer := Nat.lt_of_le_of_lt (Source.calls_take (.ofNat maxMsgSize) source) enough
  have follows : Source.Follows target (Error.io .unexpectedEof) _ _ _ _ :=
    Source.run_follows (framed_proper wide) behind fewer
  change Source.Follows target _ _ _
    (framed.program.slice _ (((Source.prospect target).left source).take _)) _ at follows
  rw [framed.slice_eq, limit] at follows
  exact ⟨_, follows, rfl⟩

/-- No call panics, whatever the bytes are. -/
theorem receive_no_panic : (receive target fuel source).1 ≠ .error .panic := by
  obtain ⟨ran, follows, received⟩ := receive_follows wide valid enough
  rw [received]
  generalize consensusDecodeFromFiniteReader _ = sliced at follows
  cases follows <;> nofun

/-- Of any bytes a message is received if and only if it is read of them. -/
theorem receive_eq_ok : (∃ next, receive target fuel source = (.ok raw, next)) ↔
    ∃ rest, consensusDecode ((Source.prospect target).left source) = .ok (raw, rest) := by
  obtain ⟨ran, follows, received⟩ := receive_follows wide valid enough
  rw [received, consensusDecode, Decoder.take]
  generalize consensusDecodeFromFiniteReader _ = sliced at follows ⊢
  cases follows with
  | value passes => simp [Prod.ext_iff]
  | refused | ended | broke => simp

/-- No message is lost, doubled or changed on the way: whatever pieces the stream comes in, those
that were sent are received in their order, and nothing else. A frame that is cut off by the end or
an error of the stream is reported as that, and of other bytes behind them a message is received
exactly when it is read of a slice with these bytes, and nothing panics on them. -/
theorem messages_arrive {sent : List RawNetworkMessage} {frames : List Bytes}
    (written : List.Forall₂ WrittenAs sent frames) {tail : Bytes}
    (left : (Source.prospect target).left source = frames.flatten ++ tail) :
    ∃ next, receiveAll target fuel sent.length source = (.ok sent, next) ∧
      (Source.prospect target).Passes source frames.flatten next ∧
      (∀ raw bytes lost, WrittenAs raw bytes → lost ≠ [] → bytes = tail ++ lost →
        ∃ last, receive target fuel next =
          (.error (.error (.io (((Source.prospect target).ending source).getD .unexpectedEof))), last)) ∧
      (∀ raw, (∃ last, receive target fuel next = (.ok raw, last)) ↔
        ∃ rest, consensusDecode tail = .ok (raw, rest)) ∧
      (receive target fuel next).1 ≠ .error .panic := by
  obtain ⟨next, received, passes, rest⟩ := receiveAll_written wide valid enough written left
  have fewer : Source.calls target next < fuel := by
    have := Source.calls_le passes
    omega
  have valid' := Source.valid _ _ _ passes
  refine ⟨next, received, passes, fun raw bytes lost written some' cut => ?_, fun raw => ?_,
    receive_no_panic wide valid' fewer⟩
  · rw [← Source.ending_eq _ _ _ passes]
    exact receive_cut wide valid' fewer written some' (by rwa [rest])
  · rw [receive_eq_ok wide valid' fewer, rest]

end RawNetworkMessage
end P2p
end

/-! A connection that breaks in the middle of the third of three pings. -/
namespace P2p.Sample
open RawNetworkMessage
attribute [local instance] Secp256k1.generatorOnly hashes Layout.wide

def wide : Target := ⟨.w64, true⟩

theorem ping_written : WrittenAs pingRaw pingFrame :=
  ⟨rfl, ⟨[15, 0, 0, 0, 0, 0, 0, 0], rfl, rfl⟩, by decide, by decide, by decide⟩

/-- What the connection yields. -/
def yielded : List (Except Unit UInt8) := (pingFrame ++ pingFrame ++ pingFrame.take 30).map .ok ++ [.error ()]

theorem pings_arrive : ∃ next last,
    receiveAll wide 100 2 (IterReader.new yielded) = (.ok [pingRaw, pingRaw], next) ∧
    receive wide 100 next = (.error (.error (.io .other)), last) := by
  have valid : Source.Valid wide (IterReader.new yielded) := rfl
  have enough : Source.calls wide (IterReader.new yielded) < 100 := by decide
  have left : (Source.prospect wide).left (IterReader.new yielded) =
      [pingFrame, pingFrame].flatten ++ pingFrame.take 30 := rfl
  obtain ⟨next, received, -, cut, -, -⟩ := messages_arrive rfl valid enough
    (.cons ping_written (.cons ping_written .nil)) left
  obtain ⟨last, broken⟩ := cut pingRaw pingFrame (pingFrame.drop 30) ping_written (by decide)
    (List.take_append_drop 30 pingFrame).symm
  exact ⟨next, last, received, broken⟩

end P2p.Sample
end Litecoin
