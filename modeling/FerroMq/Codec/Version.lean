import FerroMq.Codec.V3.Accepted
import FerroMq.Codec.V5.Accepted
import FerroMq.Lib.Slice

/-!
# Detecting the protocol version

`VersionCodec` looks at the beginning of the first packet, complete or not, and leaves the choice between the
decoders.  None of the three can be made to panic, and the version that was found stays when more bytes arrive.
-/

namespace FerroMq.Codec

open Lib List

inductive ProtocolVersion
  | mqtt3
  | mqtt5
  deriving DecidableEq, Repr

namespace VersionCodec

abbrev Answer := Except (Fault DecodeError) (Option ProtocolVersion)

def decodeLevel (src : Bytes) (pos : ℕ) : Answer := do
  let level ← index src pos
  if level = 3 ∨ level = 4 then .ok (some .mqtt3)
  else if level = 5 then .ok (some .mqtt5)
  else .error (.err .invalidProtocol)

def decodeProtocol (src : Bytes) (consumed : ℕ) : Answer := do
  let nameEnd ← addWord true consumed 6
  if src.length ≤ nameEnd then return none
  else
    let nameStart ← addWord true consumed 2
    match ← slice src consumed nameStart with
    | [hi, lo] =>
      let protocolLen := UInt16.ofNat (hi.toNat * 256 + lo.toNat)
      if protocolLen = 4 then
        let name ← slice src nameStart nameEnd
        if name ≠ utf8 "MQTT" then .error (.err .invalidProtocol)
        else decodeLevel src (← addWord true nameStart protocolLen.toNat)
      else if protocolLen = 6 then
        let nameEnd ← addWord true consumed 8
        if src.length ≤ nameEnd then return none
        else
          let name ← slice src nameStart nameEnd
          if name ≠ utf8 "MQIsdp" then .error (.err .invalidProtocol)
          else decodeLevel src (← addWord true nameStart protocolLen.toNat)
      else .error (.err .invalidProtocol)
    | _ => .error (.err .invalidProtocol)

def decode (src : Bytes) : Answer := do
  if src.length < 2 then return none
  else
    let firstByte ← index src 0
    match ← decodeVariableLength (← slice src 1 src.length) with
    | some (_, consumed) =>
      let consumed ← addWord true consumed 1
      if firstByte = PacketType.connect then decodeProtocol src consumed
      else .error (.err .unsupportedPacketType)
    | none => return none

/-! ## The answer does not change -/

def ofLevel (level : UInt8) : Answer :=
  if level = 3 ∨ level = 4 then .ok (some .mqtt3)
  else if level = 5 then .ok (some .mqtt5)
  else .error (.err .invalidProtocol)

theorem ofLevel_ne_panic (level : UInt8) : ofLevel level ≠ .error .panic := by
  unfold ofLevel
  split_ifs <;> exact nofun

theorem decodeLevel_eq {src : Bytes} {pos : ℕ} {level : UInt8}
    (h : (index src pos : Except (Fault DecodeError) UInt8) = .ok level) :
    decodeLevel src pos = ofLevel level := by
  rw [decodeLevel, h]
  rfl

theorem nameThenLevel_eq {src name expected : Bytes} {start stop len : ℕ} {level : UInt8}
    (hname : (slice src start stop : Except (Fault DecodeError) Bytes) = .ok name)
    (hlevel : (index src (start + len) : Except (Fault DecodeError) UInt8) = .ok level)
    (hword : start + len < 2 ^ 64) :
    (do let name ← slice src start stop
        if name ≠ expected then .error (.err .invalidProtocol)
        else decodeLevel src (← addWord true start len) : Answer) =
      if name ≠ expected then .error (.err .invalidProtocol) else ofLevel level := by
  rw [hname, addWord_eq hword, ← decodeLevel_eq hlevel]
  rfl

/-- The first seven bytes behind the fixed header decide which name it has to be, and, if it is the
shorter one, all the rest. -/
theorem decodeProtocol_eq {hdr : Bytes} (hhdr : hdr.length ≤ 5) (hi lo n₀ n₁ n₂ n₃ b : UInt8)
    (rest : Bytes) :
    decodeProtocol (hdr ++ hi :: lo :: n₀ :: n₁ :: n₂ :: n₃ :: b :: rest) hdr.length =
      if UInt16.ofNat (hi.toNat * 256 + lo.toNat) = 4 then
        if [n₀, n₁, n₂, n₃] ≠ utf8 "MQTT" then .error (.err .invalidProtocol) else ofLevel b
      else if UInt16.ofNat (hi.toNat * 256 + lo.toNat) = 6 then
        match rest with
        | n₅ :: level :: _ =>
          if [n₀, n₁, n₂, n₃, b, n₅] ≠ utf8 "MQIsdp" then .error (.err .invalidProtocol)
          else ofLevel level
        | _ => .ok none
      else .error (.err .invalidProtocol) := by
  generalize hbody : hi :: lo :: n₀ :: n₁ :: n₂ :: n₃ :: b :: rest = body
  have hlen : (hdr ++ body).length = hdr.length + (rest.length + 7) := by
    rw [length_append, ← hbody]
    rfl
  have hadd {n : ℕ} (hn : n ≤ 8) : (addWord true hdr.length n : Except (Fault DecodeError) ℕ) =
      .ok (hdr.length + n) := addWord_eq (by omega) true
  have hprotocolLen : (slice (hdr ++ body) hdr.length (hdr.length + 2) :
      Except (Fault DecodeError) Bytes) = .ok [hi, lo] := by
    rw [← Nat.add_zero hdr.length, Nat.add_assoc, slice_add, ← hbody]
    rfl
  rw [decodeProtocol, hadd (by omega), hadd (by omega), hadd (by omega), hlen]
  change (if hdr.length + (rest.length + 7) ≤ hdr.length + 6 then _ else _) = _
  rw [if_neg (by omega)]
  change (slice (hdr ++ body) hdr.length (hdr.length + 2) >>= _) = _
  rw [hprotocolLen]
  generalize hproto : UInt16.ofNat (hi.toNat * 256 + lo.toNat) = protocolLen
  change (if UInt16.ofNat (hi.toNat * 256 + lo.toNat) = 4 then _
    else if UInt16.ofNat (hi.toNat * 256 + lo.toNat) = 6 then
      (if hdr.length + (rest.length + 7) ≤ hdr.length + 8 then _ else _) else _) = _
  rw [hproto]
  by_cases h4 : protocolLen = 4
  · rw [if_pos h4, if_pos h4]
    subst h4
    apply nameThenLevel_eq
    · rw [slice_add, ← hbody]
      rfl
    · rw [Nat.add_assoc, index_add, ← hbody]
      rfl
    · show hdr.length + 2 + 4 < 2 ^ 64
      omega
  rw [if_neg h4, if_neg h4]
  by_cases h6 : protocolLen = 6
  · rw [if_pos h6, if_pos h6]
    subst h6
    match rest, hbody with
    | [], _ => exact if_pos (by rw [length_nil]; omega)
    | [_], _ => exact if_pos (by rw [length_singleton])
    | n₅ :: level :: tail, hbody =>
      rw [if_neg (by rw [length_cons, length_cons]; omega)]
      apply nameThenLevel_eq
      · rw [slice_add, ← hbody]
        rfl
      · rw [Nat.add_assoc, index_add, ← hbody]
        rfl
      · show hdr.length + 2 + 6 < 2 ^ 64
        omega
  · rw [if_neg h6, if_neg h6]

/-- The decoder waits for more bytes, or more bytes change nothing. -/
def Settled (f : Bytes → Answer) (src : Bytes) : Prop :=
  f src = .ok none ∨ f src ≠ .error .panic ∧ ∀ more, f (src ++ more) = f src

theorem settled_decodeProtocol {hdr : Bytes} (hhdr : hdr.length ≤ 5) (body : Bytes) :
    Settled (fun body => decodeProtocol (hdr ++ body) hdr.length) body := by
  by_cases hlen : body.length ≤ 6
  · left
    show decodeProtocol (hdr ++ body) hdr.length = .ok none
    rw [decodeProtocol, addWord_eq (by omega), length_append]
    exact if_pos (by omega)
  obtain ⟨hi, lo, n₀, n₁, n₂, n₃, b, rest, rfl⟩ :
      ∃ hi lo n₀ n₁ n₂ n₃ b rest, body = hi :: lo :: n₀ :: n₁ :: n₂ :: n₃ :: b :: rest := by
    match body, Nat.lt_of_not_le hlen with
    | hi :: lo :: n₀ :: n₁ :: n₂ :: n₃ :: b :: rest, _ => exact ⟨hi, lo, n₀, n₁, n₂, n₃, b, rest, rfl⟩
  simp only [Settled, cons_append, decodeProtocol_eq hhdr]
  by_cases h4 : UInt16.ofNat (hi.toNat * 256 + lo.toNat) = 4
  · simp only [if_pos h4]
    refine Or.inr ⟨?_, fun _ => trivial⟩
    split_ifs
    · exact nofun
    · exact ofLevel_ne_panic b
  simp only [if_neg h4]
  by_cases h6 : UInt16.ofNat (hi.toNat * 256 + lo.toNat) = 6
  · simp only [if_pos h6]
    -- the longer name needs two more bytes
    match rest with
    | [] => exact Or.inl rfl
    | [_] => exact Or.inl rfl
    | n₅ :: level :: tail =>
      refine Or.inr ⟨?_, fun _ => rfl⟩
      dsimp only
      split_ifs
      · exact nofun
      · exact ofLevel_ne_panic level
  · simp only [if_neg h6]
    exact Or.inr ⟨nofun, fun _ => trivial⟩

theorem decode_cons {firstByte : UInt8} {rest : Bytes} (hne : rest ≠ []) :
    decode (firstByte :: rest) = (do
      match ← decodeVariableLength rest with
      | some (_, consumed) =>
        let consumed ← addWord true consumed 1
        if firstByte = PacketType.connect then decodeProtocol (firstByte :: rest) consumed
        else .error (.err .unsupportedPacketType)
      | none => return none) := by
  have hlen := length_pos_of_ne_nil hne
  have hslice : (slice (firstByte :: rest) 1 (firstByte :: rest).length :
      Except (Fault DecodeError) Bytes) = .ok rest := by
    rw [slice, if_pos (by rw [length_cons]; omega)]
    simp
  rw [decode, if_neg (by rw [length_cons]; omega), hslice]
  rfl

theorem decode_header {len : Bytes} {n : ℕ} (h : Dec.Reads decodeVariableLengthCursor len n)
    (hpos : 0 < len.length) (hlen : len.length ≤ 4) (firstByte : UInt8) (body : Bytes) :
    decode ((firstByte :: len) ++ body) =
      if firstByte = PacketType.connect then
        decodeProtocol ((firstByte :: len) ++ body) (firstByte :: len).length
      else .error (.err .unsupportedPacketType) := by
  have hne : len ++ body ≠ [] := append_ne_nil_of_left_ne_nil (ne_nil_of_length_pos hpos) _
  rw [cons_append, decode_cons hne, decodeVariableLength_append h]
  change (addWord true len.length 1 >>= _) = _
  rw [addWord_eq (by omega)]
  rfl

theorem decode_of_error {rest : Bytes} {f : Fault DecodeError} (hne : rest ≠ [])
    (hd : decodeVariableLengthCursor rest = .error f) (hf : f ≠ .err .malformedPacket)
    (firstByte : UInt8) : decode (firstByte :: rest) = .error f := by
  have hlen : decodeVariableLength rest = .error f := by
    rw [decodeVariableLength, hd]
    rcases f with (_ | _) | _ <;> first | rfl | exact absurd rfl hf
  rw [decode_cons hne, hlen]
  rfl

theorem settled_decode (src : Bytes) : Settled decode src := by
  by_cases hlen : src.length < 2
  · exact Or.inl (by rw [decode, if_pos hlen]; rfl)
  obtain ⟨firstByte, rest, rfl⟩ : ∃ firstByte rest, src = firstByte :: rest :=
    exists_cons_of_length_pos (by omega)
  have hne : rest ≠ [] := by
    rintro rfl
    exact hlen Nat.one_lt_two
  have hsafe := safe_decodeVariableLengthLoop 4 0 rfl (by norm_num) (show 0 < 128 ^ 0 by norm_num) rest
  have hdecided := decided_decodeVariableLengthCursor rest
  change Dec.Safe decodeVariableLengthCursor _ _ at hsafe
  rcases hd : decodeVariableLengthCursor rest with f | ⟨n, body⟩
  · rw [hd] at hdecided
    by_cases hf : f = .err .malformedPacket
    · left
      rw [decode_cons hne, decodeVariableLength, hd, hf]
      rfl
    · right
      have hmore := hdecided.resolve_left hf
      rw [decode_of_error hne hd hf]
      refine ⟨?_, fun more => ?_⟩
      · rintro ⟨⟩
        exact hsafe.ne_panic hd
      · exact decode_of_error (append_ne_nil_of_left_ne_nil hne _) (hmore more) hf firstByte
  · rw [hd] at hdecided
    obtain ⟨len, rfl, hreads⟩ := hdecided
    obtain ⟨k, hk, hk4, -, hbody⟩ := hsafe.of_ok hd
    rw [length_append] at hbody
    have hdecode := decode_header hreads (by omega) (by omega) firstByte
    have hhdr : (firstByte :: len).length ≤ 5 := by
      rw [length_cons]
      omega
    have hprotocol := settled_decodeProtocol hhdr body
    rw [← cons_append]
    simp only [Settled, append_assoc, hdecode] at hprotocol ⊢
    split_ifs
    · exact hprotocol
    · exact Or.inr ⟨by rintro ⟨⟩, fun _ => rfl⟩

end VersionCodec

/-- Nothing that is received makes a decoder panic, its arithmetic does not overflow, and the version
that was found stays the same whatever follows. -/
theorem decoders_never_panic :
    (∀ firstByte body, V3.decodePacket firstByte body ≠ .error .panic ∧
      V5.decodePacket firstByte body ≠ .error .panic) ∧
    decodeVariableLengthCursorU32 = decodeVariableLengthCursor ∧
    (∀ src, VersionCodec.decode src ≠ .error .panic) ∧
    ∀ src more, VersionCodec.decode src = .ok none ∨
      VersionCodec.decode (src ++ more) = VersionCodec.decode src := by
  refine ⟨fun firstByte body => ⟨?_, ?_⟩, decodeVariableLengthCursorU32_eq, fun src => ?_,
    fun src more => ?_⟩
  · exact (V3.safe_decodePacket firstByte body).ne_panic
  · exact (V5.safe_decodePacket firstByte body).ne_panic
  · rcases VersionCodec.settled_decode src with hnone | h
    · rw [hnone]
      exact nofun
    · exact h.1
  · exact (VersionCodec.settled_decode src).imp_right fun h => h.2 more

end FerroMq.Codec
