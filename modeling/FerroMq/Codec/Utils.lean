import FerroMq.Codec.VarInt

/-!
# Fields of packets

The `Encode` and `Decode` traits of `utils.rs` with their instances, and `WireFormat`, which ties them together:
the bytes of a value, which values fit, that the encoder writes and counts these bytes, and that the decoder
reads them back and accepts nothing else.
-/

namespace FerroMq.Codec

open Lib List

class Encode (α : Type) where
  encodedSize : α → ℕ
  encode : α → Enc EncodeError Unit

class Decode (α : Type) where
  decode : Dec DecodeError α

export Encode (encodedSize encode)
export Decode (decode)

/-- The laws that tie the encoder and the decoder of a field together. -/
class WireFormat (α : Type) extends Encode α, Decode α where
  wire : α → Bytes
  Fits : α → Prop
  size_eq : ∀ a, encodedSize a = (wire a).length
  emits : ∀ a, Enc.Emits (encode a) (Fits a) (wire a)
  reads : ∀ a, Fits a → Dec.Reads decode (wire a) a
  safe : ∀ src, Dec.Safe decode src fun a rest => Fits a ∧ src = wire a ++ rest

export WireFormat (wire Fits)

/-- The encoder returns an error for a value that does not fit. -/
class StrictFormat (α : Type) [WireFormat α] : Prop where
  strict : ∀ a : α, Enc.Strict (encode a) (Fits a) (wire a)

/-! ## Integers -/

def be16 (n : UInt16) : Bytes := [UInt8.ofNat (n.toNat / 256), UInt8.ofNat n.toNat]

def be32 (n : UInt32) : Bytes :=
  [UInt8.ofNat (n.toNat / 256 ^ 3), UInt8.ofNat (n.toNat / 256 ^ 2), UInt8.ofNat (n.toNat / 256),
    UInt8.ofNat n.toNat]

def getU16 : Dec DecodeError UInt16 := do
  let hi ← Dec.getU8
  let lo ← Dec.getU8
  pure (UInt16.ofNat (hi.toNat * 256 + lo.toNat))

def getU32 : Dec DecodeError UInt32 := do
  let b₃ ← Dec.getU8
  let b₂ ← Dec.getU8
  let b₁ ← Dec.getU8
  let b₀ ← Dec.getU8
  pure (UInt32.ofNat (b₃.toNat * 256 ^ 3 + b₂.toNat * 256 ^ 2 + b₁.toNat * 256 + b₀.toNat))

theorem reads_getU16 (n : UInt16) : Dec.Reads getU16 (be16 n) n := by
  intro rest
  have hn := n.toNat_lt
  have h : UInt16.ofNat ((UInt8.ofNat (n.toNat / 256)).toNat * 256 +
      (UInt8.ofNat n.toNat).toNat) = n := by
    apply UInt16.toNat_inj.1
    simp only [UInt16.toNat_ofNat', UInt8.toNat_ofNat']
    omega
  simp only [getU16, be16, Dec.bind_apply, Dec.getU8, cons_append, nil_append,
    Dec.pure_apply, h]

theorem be16_ofNat (hi lo : UInt8) : be16 (UInt16.ofNat (hi.toNat * 256 + lo.toNat)) = [hi, lo] := by
  have h₁ := hi.toNat_lt
  have h₀ := lo.toNat_lt
  simp only [be16, UInt16.toNat_ofNat', List.cons.injEq, and_true]
  constructor <;> apply UInt8.toNat_inj.1 <;> rw [UInt8.toNat_ofNat'] <;> omega

theorem safe_getU16 {src : Bytes} (h : 2 ≤ src.length) :
    Dec.Safe getU16 src fun n rest => src = be16 n ++ rest := by
  obtain ⟨hi, lo, rest, rfl⟩ : ∃ hi lo rest, src = hi :: lo :: rest := by
    match src, h with
    | hi :: lo :: rest, _ => exact ⟨hi, lo, rest, rfl⟩
  change hi :: lo :: rest = be16 _ ++ rest
  rw [be16_ofNat]
  rfl

theorem reads_getU32 (n : UInt32) : Dec.Reads getU32 (be32 n) n := by
  intro rest
  have hn := n.toNat_lt
  have h : UInt32.ofNat ((UInt8.ofNat (n.toNat / 256 ^ 3)).toNat * 256 ^ 3 +
      (UInt8.ofNat (n.toNat / 256 ^ 2)).toNat * 256 ^ 2 +
      (UInt8.ofNat (n.toNat / 256)).toNat * 256 + (UInt8.ofNat n.toNat).toNat) = n := by
    apply UInt32.toNat_inj.1
    simp only [UInt32.toNat_ofNat', UInt8.toNat_ofNat']
    omega
  simp only [getU32, be32, Dec.bind_apply, Dec.getU8, cons_append, nil_append,
    Dec.pure_apply, h]

theorem be32_ofNat (b₃ b₂ b₁ b₀ : UInt8) :
    be32 (UInt32.ofNat (b₃.toNat * 256 ^ 3 + b₂.toNat * 256 ^ 2 + b₁.toNat * 256 + b₀.toNat)) =
      [b₃, b₂, b₁, b₀] := by
  have h₃ := b₃.toNat_lt
  have h₂ := b₂.toNat_lt
  have h₁ := b₁.toNat_lt
  have h₀ := b₀.toNat_lt
  simp only [be32, UInt32.toNat_ofNat', List.cons.injEq, and_true]
  refine ⟨?_, ?_, ?_, ?_⟩ <;> apply UInt8.toNat_inj.1 <;> rw [UInt8.toNat_ofNat'] <;> omega

theorem safe_getU32 {src : Bytes} (h : 4 ≤ src.length) :
    Dec.Safe getU32 src fun n rest => src = be32 n ++ rest := by
  obtain ⟨b₃, b₂, b₁, b₀, rest, rfl⟩ : ∃ b₃ b₂ b₁ b₀ rest, src = b₃ :: b₂ :: b₁ :: b₀ :: rest := by
    match src, h with
    | b₃ :: b₂ :: b₁ :: b₀ :: rest, _ => exact ⟨b₃, b₂, b₁, b₀, rest, rfl⟩
  change b₃ :: b₂ :: b₁ :: b₀ :: rest = be32 _ ++ rest
  rw [be32_ofNat]
  rfl

instance : WireFormat Bool where
  encodedSize _ := 1
  encode b := Enc.putU8 b.toUInt8
  decode := do
    let more ← Dec.hasRemaining
    Dec.ensure (more = true) .invalidLength
    let v ← Dec.getU8
    Dec.ensure (v ≤ 0x1) .malformedPacket
    pure (v = 0x1)
  wire b := [b.toUInt8]
  Fits _ := True
  size_eq _ := rfl
  emits b := Enc.Emits.putU8 _
  reads b _ rest := by cases b <;> rfl
  safe src := by
    refine .bind (.hasRemaining (.bind (.ensure fun hne => ?_)))
    refine .bind (.getU8 (by simpa using hne) ?_)
    rintro v rest rfl
    refine .bind (.ensure fun hv => .pure ⟨trivial, ?_⟩)
    have hv' : v = 0 ∨ v = 1 := by
      have : v.toNat ≤ 1 := hv
      rcases Nat.le_one_iff_eq_zero_or_eq_one.1 this with h | h
      · exact Or.inl (UInt8.toNat_inj.1 h)
      · exact Or.inr (UInt8.toNat_inj.1 h)
    rcases hv' with rfl | rfl <;> rfl

instance : StrictFormat Bool := ⟨fun _ => Enc.Strict.putU8 _⟩

instance : WireFormat UInt16 where
  encodedSize _ := 2
  encode n := Enc.putSlice (be16 n)
  decode := do
    let r ← Dec.remaining
    Dec.ensure (2 ≤ r) .invalidLength
    getU16
  wire := be16
  Fits _ := True
  size_eq _ := rfl
  emits n := Enc.Emits.putSlice _
  reads n _ := .need le_rfl (reads_getU16 n)
  safe src := by
    refine .bind (.remaining (.bind (.ensure fun h => ?_)))
    exact (safe_getU16 h).mono fun n rest hsrc => ⟨trivial, hsrc⟩

instance : StrictFormat UInt16 := ⟨fun _ => Enc.Strict.putSlice _⟩

instance : WireFormat UInt32 where
  encodedSize _ := 4
  encode n := Enc.putSlice (be32 n)
  decode := do
    let r ← Dec.remaining
    Dec.ensure (4 ≤ r) .invalidLength
    getU32
  wire := be32
  Fits _ := True
  size_eq _ := rfl
  emits n := Enc.Emits.putSlice _
  reads n _ := .need le_rfl (reads_getU32 n)
  safe src := by
    refine .bind (.remaining (.bind (.ensure fun h => ?_)))
    exact (safe_getU32 h).mono fun n rest hsrc => ⟨trivial, hsrc⟩

instance : StrictFormat UInt32 := ⟨fun _ => Enc.Strict.putSlice _⟩

def NonZeroU16.ofU16 (n : UInt16) : Dec DecodeError NonZeroU16 :=
  if h : n ≠ 0 then pure ⟨n, h⟩ else Dec.fail .malformedPacket

def NonZeroU32.ofU32 (n : UInt32) : Dec DecodeError NonZeroU32 :=
  if h : n ≠ 0 then pure ⟨n, h⟩ else Dec.fail .malformedPacket

theorem NonZeroU16.reads_ofU16 (n : NonZeroU16) : Dec.Reads (ofU16 n.1) [] n := by
  rw [ofU16, dif_pos n.2]
  exact .pure n

theorem NonZeroU32.reads_ofU32 (n : NonZeroU32) : Dec.Reads (ofU32 n.1) [] n := by
  rw [ofU32, dif_pos n.2]
  exact .pure n

theorem NonZeroU16.safe_ofU16 {n : UInt16} {src : Bytes} {Q : NonZeroU16 → Bytes → Prop}
    (h : ∀ hn, Q ⟨n, hn⟩ src) : Dec.Safe (ofU16 n) src Q := by
  unfold ofU16
  split_ifs with hn
  · exact .pure (h hn)
  · exact .fail

theorem NonZeroU32.safe_ofU32 {n : UInt32} {src : Bytes} {Q : NonZeroU32 → Bytes → Prop}
    (h : ∀ hn, Q ⟨n, hn⟩ src) : Dec.Safe (ofU32 n) src Q := by
  unfold ofU32
  split_ifs with hn
  · exact .pure (h hn)
  · exact .fail

instance : WireFormat NonZeroU16 where
  encodedSize _ := 2
  encode n := encode n.1
  decode := do
    let n ← decode
    NonZeroU16.ofU16 n
  wire n := wire n.1
  Fits _ := True
  size_eq _ := rfl
  emits n := WireFormat.emits n.1
  reads n _ := (WireFormat.reads n.1 trivial).bind_last n.reads_ofU16
  safe src := by
    refine .bind ((WireFormat.safe src).mono fun n rest hsrc => ?_)
    exact NonZeroU16.safe_ofU16 fun hn => ⟨trivial, hsrc.2⟩

instance : StrictFormat NonZeroU16 := ⟨fun n => StrictFormat.strict n.1⟩

instance : WireFormat NonZeroU32 where
  encodedSize _ := 4
  encode n := encode n.1
  decode := do
    let n ← decode
    NonZeroU32.ofU32 n
  wire n := wire n.1
  Fits _ := True
  size_eq _ := rfl
  emits n := WireFormat.emits n.1
  reads n _ := (WireFormat.reads n.1 trivial).bind_last n.reads_ofU32
  safe src := by
    refine .bind ((WireFormat.safe src).mono fun n rest hsrc => ?_)
    exact NonZeroU32.safe_ofU32 fun hn => ⟨trivial, hsrc.2⟩

instance : StrictFormat NonZeroU32 := ⟨fun n => StrictFormat.strict n.1⟩

/-! ## Binary data and strings -/

def encodeSlice (bs : Bytes) : Enc EncodeError Unit :=
  if bs.length ≤ 65535 then do
    Enc.putSlice (be16 (UInt16.ofNat bs.length))
    Enc.putSlice bs
  else Enc.fail .invalidLength

def decodeBytes : Dec DecodeError Bytes := do
  let len : UInt16 ← decode
  let r ← Dec.remaining
  Dec.ensure (len.toNat ≤ r) .invalidLength
  Dec.splitTo len.toNat

def sliceWire (bs : Bytes) : Bytes := be16 (UInt16.ofNat bs.length) ++ bs

theorem length_sliceWire (bs : Bytes) : (sliceWire bs).length = 2 + bs.length := by
  simp only [sliceWire, be16, length_append, length_cons, length_nil]

theorem strict_encodeSlice (bs : Bytes) :
    Enc.Strict (encodeSlice bs) (bs.length ≤ 65535) (sliceWire bs) := by
  unfold encodeSlice
  split_ifs with h
  · exact ((Enc.Strict.putSlice _).bind (Enc.Strict.putSlice _)).congr (by simp [h]) fun _ => rfl
  · exact (Enc.Strict.fail _).congr (by simp [h]) fun hf => hf.elim

theorem reads_decodeBytes {bs : Bytes} (h : bs.length ≤ 65535) :
    Dec.Reads decodeBytes (sliceWire bs) bs := by
  have hlen : (UInt16.ofNat bs.length).toNat = bs.length := by
    rw [UInt16.toNat_ofNat']
    omega
  refine (WireFormat.reads (UInt16.ofNat bs.length) trivial).bind ?_
  exact .need hlen.le (.splitTo hlen.symm)

theorem safe_decodeBytes (src : Bytes) :
    Dec.Safe decodeBytes src fun bs rest => bs.length ≤ 65535 ∧ src = sliceWire bs ++ rest := by
  refine .bind ((WireFormat.safe src).mono ?_)
  rintro len rest ⟨-, rfl⟩
  refine .bind (.remaining (.bind (.ensure fun h => .splitTo h ?_)))
  have hlt := len.toNat_lt
  have htake : (rest.take len.toNat).length = len.toNat := length_take_of_le h
  have hof : UInt16.ofNat len.toNat = len := UInt16.toNat_inj.1 (by
    rw [UInt16.toNat_ofNat']
    omega)
  refine ⟨by omega, ?_⟩
  rw [sliceWire, htake, hof, append_assoc, take_append_drop]
  rfl

instance : WireFormat Bytes where
  encodedSize bs := 2 + bs.length
  encode := encodeSlice
  decode := decodeBytes
  wire := sliceWire
  Fits bs := bs.length ≤ 65535
  size_eq bs := (length_sliceWire bs).symm
  emits bs := (strict_encodeSlice bs).emits
  reads _ := reads_decodeBytes
  safe := safe_decodeBytes

instance : StrictFormat Bytes := ⟨strict_encodeSlice⟩

def utf8 (s : String) : Bytes := s.toByteArray.data.toList

def ofUtf8 (bs : Bytes) : Dec DecodeError String :=
  match String.fromUTF8? ⟨bs.toArray⟩ with
  | some s => pure s
  | none => Dec.fail .utf8Error

theorem fromUTF8?_eq_some_iff {bs : Bytes} {s : String} :
    String.fromUTF8? ⟨bs.toArray⟩ = some s ↔ utf8 s = bs := by
  unfold String.fromUTF8? utf8
  constructor
  · intro h
    split_ifs at h with hv
    cases h
    rfl
  · rintro rfl
    exact dif_pos s.isValidUTF8

theorem reads_ofUtf8 (s : String) : Dec.Reads (ofUtf8 (utf8 s)) [] s := by
  unfold ofUtf8
  rw [fromUTF8?_eq_some_iff.2 rfl]
  exact .pure s

theorem safe_ofUtf8 {bs src : Bytes} {Q : String → Bytes → Prop} (h : ∀ s, utf8 s = bs → Q s src) :
    Dec.Safe (ofUtf8 bs) src Q := by
  unfold ofUtf8
  rcases hs : String.fromUTF8? ⟨bs.toArray⟩ with _ | s
  · exact .fail
  · exact .pure (h s (fromUTF8?_eq_some_iff.1 hs))

instance : WireFormat String where
  encodedSize s := 2 + (utf8 s).length
  encode s := encodeSlice (utf8 s)
  decode := do
    let bs : Bytes ← decode
    ofUtf8 bs
  wire s := sliceWire (utf8 s)
  Fits s := (utf8 s).length ≤ 65535
  size_eq s := (length_sliceWire _).symm
  emits s := (strict_encodeSlice _).emits
  reads s h := (reads_decodeBytes h).bind_last (reads_ofUtf8 s)
  safe src := by
    refine .bind ((safe_decodeBytes src).mono fun bs rest h => safe_ofUtf8 ?_)
    rintro s rfl
    exact h

instance : StrictFormat String := ⟨fun s => strict_encodeSlice (utf8 s)⟩

instance : WireFormat UserProperty where
  encodedSize p := encodedSize p.1 + encodedSize p.2
  encode p := do
    encode p.1
    encode p.2
  decode := do
    let key ← decode
    let val ← decode
    pure (key, val)
  wire p := wire p.1 ++ wire p.2
  Fits p := Fits p.1 ∧ Fits p.2
  size_eq p := by simp [WireFormat.size_eq]
  emits p := (WireFormat.emits p.1).bind (WireFormat.emits p.2)
  reads p h := (WireFormat.reads p.1 h.1).bind ((WireFormat.reads p.2 h.2).bind_last (.pure p))
  safe src := by
    refine .bind ((WireFormat.safe src).mono ?_)
    rintro key rest ⟨hkey, rfl⟩
    refine .bind ((WireFormat.safe rest).mono ?_)
    rintro val rest' ⟨hval, rfl⟩
    exact .pure ⟨⟨hkey, hval⟩, by rw [List.append_assoc]⟩

instance : StrictFormat UserProperty :=
  ⟨fun p => (StrictFormat.strict p.1).bind (StrictFormat.strict p.2)⟩

theorem length_wire {α : Type} [WireFormat α] (a : α) : (wire a).length = encodedSize a :=
  (WireFormat.size_eq a).symm

/-! ## Parts of packets -/

section Parts

variable {α : Type}

def encodeOption [Encode α] : Option α → Enc EncodeError Unit
  | some v => encode v
  | none => pure ()

def decodeIf (c : Bool) (d : Dec DecodeError α) : Dec DecodeError (Option α) :=
  if c then do return some (← d) else pure none

def takeRest : Dec DecodeError Bytes := fun src => .ok (src, [])

def FitsOpt [WireFormat α] (o : Option α) : Prop := ∀ a ∈ o, Fits a

def optWire [WireFormat α] (o : Option α) : Bytes := (o.map wire).getD []

@[simp] theorem fitsOpt_none [WireFormat α] : FitsOpt (none : Option α) := nofun

@[simp] theorem fitsOpt_some [WireFormat α] {a : α} : FitsOpt (some a) ↔ Fits a := by
  simp [FitsOpt]

theorem fitsOpt_of_forall [WireFormat α] (h : ∀ a : α, Fits a) (o : Option α) : FitsOpt o :=
  fun a _ => h a

theorem length_optWire [WireFormat α] (o : Option α) :
    (optWire o).length = (o.map encodedSize).getD 0 := by
  cases o with
  | none => rfl
  | some a => simp [optWire, length_wire]

theorem strict_encodeOption [WireFormat α] [StrictFormat α] (o : Option α) :
    Enc.Strict (encodeOption o) (FitsOpt o) (optWire o) := by
  cases o with
  | none => exact Enc.Strict.pure.congr (iff_of_true trivial fitsOpt_none) fun _ => rfl
  | some a => exact (StrictFormat.strict a).congr fitsOpt_some.symm fun _ => rfl

theorem returns_takeRest {f : Bytes → Dec DecodeError α} {bs : Bytes} {a : α}
    (h : Dec.Returns (f bs) [] a) : Dec.Returns (takeRest >>= f) bs a := h

theorem reads_decodeIf {d : Dec DecodeError α} {c : Bool} {w : α → Bytes} {o : Option α}
    (hc : c = o.isSome) (h : ∀ a ∈ o, Dec.Reads d (w a) a) :
    Dec.Reads (decodeIf c d) ((o.map w).getD []) o := by
  subst hc
  cases o with
  | none => exact .pure none
  | some a => exact (h a rfl).bind_last (.pure (some a))

theorem safe_decodeIf {d : Dec DecodeError α} {P : α → Prop} {w : α → Bytes} {src : Bytes} (c : Bool)
    (h : Dec.Safe d src fun a rest => P a ∧ (w a).length + rest.length ≤ src.length) :
    Dec.Safe (decodeIf c d) src fun o rest =>
      (∀ a ∈ o, P a) ∧ ((o.map w).getD []).length + rest.length ≤ src.length := by
  unfold decodeIf
  split_ifs
  · refine .bind (h.mono fun a rest ha => .pure ⟨?_, ha.2⟩)
    rintro _ ⟨⟩
    exact ha.1
  · refine .pure ⟨?_, ?_⟩
    · rintro _ ⟨⟩
    · simp

end Parts

namespace Publish

/-- The packet id is there exactly if the quality of service asks for one. -/
def encodePacketId (self : Publish) : Enc EncodeError Unit :=
  if self.qos = .atMostOnce then
    if self.packetId.isSome then Enc.fail .malformedPacket else pure ()
  else
    match self.packetId with
    | some id => encode id
    | none => Enc.fail .packetIdRequired

def decodePacketId (qos : QoS) : Dec DecodeError (Option NonZeroU16) :=
  if qos = .atMostOnce then pure none else do return some (← decode)

def IdOk (qos : QoS) (packetId : Option NonZeroU16) : Prop :=
  packetId.isSome = true ↔ qos ≠ .atMostOnce

def idWire (qos : QoS) (packetId : Option NonZeroU16) : Bytes :=
  if qos = .atMostOnce then [] else optWire packetId

theorem length_idWire {qos : QoS} {packetId : Option NonZeroU16} (h : IdOk qos packetId) :
    (idWire qos packetId).length = if qos = .atMostOnce then 0 else 2 := by
  unfold idWire
  split_ifs with hq
  · rfl
  · obtain ⟨id, rfl⟩ := Option.isSome_iff_exists.1 (h.2 hq)
    rfl

theorem strict_encodePacketId (p : Publish) :
    Enc.Strict (encodePacketId p) (IdOk p.qos p.packetId) (idWire p.qos p.packetId) := by
  unfold encodePacketId IdOk idWire
  by_cases hq : p.qos = .atMostOnce
  · cases hid : p.packetId with
    | none =>
      simp only [hq, if_true, Option.isSome_none, Bool.false_eq_true, if_false]
      exact Enc.Strict.pure.congr (by simp) fun _ => rfl
    | some id =>
      simp only [hq, if_true, Option.isSome_some]
      exact (Enc.Strict.fail _).congr (by simp) fun h => h.elim
  · cases hid : p.packetId with
    | none =>
      simp only [hq, if_false]
      exact (Enc.Strict.fail _).congr (by simp [hq]) fun h => h.elim
    | some id =>
      simp only [hq, if_false]
      exact (StrictFormat.strict id).congr (iff_of_true trivial (by simp [hq])) fun _ => rfl

theorem reads_decodePacketId {qos : QoS} {packetId : Option NonZeroU16} (h : IdOk qos packetId) :
    Dec.Reads (decodePacketId qos) (idWire qos packetId) packetId := by
  unfold IdOk at h
  unfold decodePacketId idWire
  split_ifs with hq
  · cases packetId with
    | none => exact .pure none
    | some id => simp [hq] at h
  · cases packetId with
    | none => simp [hq] at h
    | some id => exact (WireFormat.reads id trivial).bind_last (.pure _)

theorem safe_decodePacketId (qos : QoS) (src : Bytes) :
    Dec.Safe (decodePacketId qos) src fun packetId rest =>
      IdOk qos packetId ∧ (idWire qos packetId).length + rest.length ≤ src.length := by
  unfold decodePacketId IdOk idWire
  split_ifs with hq
  · exact .pure ⟨by simp [hq], by simp⟩
  · refine .bind ((WireFormat.safe src).mono ?_)
    rintro id rest ⟨-, rfl⟩
    exact .pure ⟨by simp [hq], by simp [optWire]⟩

end Publish

/-! ## Properties -/

def takeProperties : Dec DecodeError Bytes := do
  let propLen ← decodeVariableLengthCursor
  let r ← Dec.remaining
  Dec.ensure (propLen ≤ r) .invalidLength
  Dec.splitTo propLen

def readValue {α : Type} [Decode α] (self : Option α) : Dec DecodeError (Option α) := do
  Dec.ensure (self = none) .malformedPacket
  let v ← decode
  pure (some v)

theorem reads_takeProperties {props : Bytes} (h : props.length ≤ maxPacketSize) :
    Dec.Reads takeProperties (varLen props.length ++ props) props :=
  (reads_decodeVariableLengthCursor h).bind (.need le_rfl (.splitTo rfl))

theorem safe_takeProperties (src : Bytes) :
    Dec.Safe takeProperties src fun props rest =>
      props.length ≤ maxPacketSize ∧
        (varLen props.length).length + props.length + rest.length ≤ src.length := by
  refine .bind ((safe_decodeVariableLengthCursor src).mono ?_)
  rintro n rest ⟨hn, hlen, -⟩
  refine .bind (.remaining (.bind (.ensure fun h => .splitTo h ?_)))
  have htake : (rest.take n).length = n := length_take_of_le h
  rw [htake, length_drop]
  omega

theorem reads_readValue {α : Type} [WireFormat α] {a : α} (h : Fits a) :
    Dec.Reads (readValue (none : Option α)) (wire a) (some a) :=
  .bind_nil (.ensure rfl _) ((WireFormat.reads a h).bind_last (.pure _))

end FerroMq.Codec
