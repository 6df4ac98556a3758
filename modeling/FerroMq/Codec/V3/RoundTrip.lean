import FerroMq.Codec.V3.Codec

/-!
# The MQTT 3 codec reads what it writes

`Packet.wire` is the content of a packet, `Packet.Fits` says which packets the format holds and
`Packet.Readable` which of them the decoder accepts.  What the encoder writes (`Packet.strict_encode`) is read
back, with a CONNECT as one of 3.1.1 and without the MQTT 5 properties of a PUBLISH (`Packet.normal`).
-/

set_option linter.dupNamespace false

namespace FerroMq.Codec.V3

open Lib List

/-! ## The byte format -/

namespace LastWill

def wire (w : LastWill) : Bytes := Codec.wire w.topic ++ Codec.wire w.message

def Fits (w : LastWill) : Prop := Codec.Fits w.topic ∧ Codec.Fits w.message

end LastWill

namespace Connect

def headWire (c : Connect) : Bytes := sliceWire (utf8 c.protocol.name) ++ [4, c.flags]

def wire (c : Connect) : Bytes :=
  c.headWire ++ (be16 c.keepAlive ++ (Codec.wire c.clientId
    ++ ((c.lastWill.map LastWill.wire).getD [] ++ (optWire c.username ++ optWire c.password))))

structure Fits (c : Connect) : Prop where
  clientId : Codec.Fits c.clientId
  lastWill : ∀ w ∈ c.lastWill, LastWill.Fits w
  username : FitsOpt c.username
  password : FitsOpt c.password

end Connect

def filterWire (f : String × QoS) : Bytes := wire f.1 ++ [toU8 f.2]

namespace Packet

def wire : Packet → Bytes
  | .connect c => c.wire
  | .connectAck a => [a.sessionPresent.toUInt8, toU8 a.returnCode]
  | .publish p => Codec.wire p.topic ++ (Publish.idWire p.qos p.packetId ++ p.payload)
  | .publishAck packetId | .publishReceived packetId | .publishRelease packetId
  | .publishComplete packetId | .unsubscribeAck packetId => Codec.wire packetId
  | .subscribe packetId topicFilters => Codec.wire packetId ++ topicFilters.flatMap filterWire
  | .subscribeAck packetId status => Codec.wire packetId ++ status.map SubscribeReturnCode.toU8
  | .unsubscribe packetId topicFilters => Codec.wire packetId ++ topicFilters.flatMap Codec.wire
  | .pingRequest | .pingResponse | .disconnect => []

/-- The strings are not too long, and a PUBLISH has a packet id exactly if it needs one. -/
def Fits : Packet → Prop
  | .connect c => c.Fits
  | .publish p => Codec.Fits p.topic ∧ Publish.IdOk p.qos p.packetId
  | .subscribe _ topicFilters => ∀ f ∈ topicFilters, Codec.Fits f.1
  | .unsubscribe _ topicFilters => ∀ f ∈ topicFilters, Codec.Fits f
  | _ => True

/-- What the decoder asks for beyond the format. -/
def Readable : Packet → Prop
  | .connect c => c.clientId ≠ "" ∨ c.cleanSession = true
  | .publish p => p.topic ≠ ""
  | .subscribe _ topicFilters => topicFilters ≠ [] ∧ ∀ f ∈ topicFilters, f.1 ≠ ""
  | .unsubscribe _ topicFilters => topicFilters ≠ [] ∧ ∀ f ∈ topicFilters, f ≠ ""
  | _ => True

/-- The packet without what the format does not hold. -/
def normal : Packet → Packet
  | .connect c => .connect { c with protocol := ⟨4⟩, cert := none }
  | .publish p => .publish { p with properties := none }
  | p => p

end Packet

/-! ## Writing -/

theorem strict_encodeLastWill (o : Option LastWill) :
    Enc.Strict (encodeLastWill o) (∀ w ∈ o, LastWill.Fits w) ((o.map LastWill.wire).getD []) := by
  cases o with
  | none => exact Enc.Strict.pure.congr (by simp) fun _ => rfl
  | some w =>
    exact ((StrictFormat.strict w.topic).bind (StrictFormat.strict w.message)).congr
      (by simp [LastWill.Fits]) fun _ => rfl

theorem Protocol.fits_name (p : Protocol) : (utf8 p.name).length ≤ 65535 := by
  unfold Protocol.name
  split_ifs <;> decide

theorem strict_encodeConnect (c : Connect) : Enc.Strict (encodeConnect c) c.Fits c.wire := by
  refine ((strict_encodeSlice (utf8 c.protocol.name)).bind ((Enc.Strict.putSlice [4, c.flags]).andThen
    ((Enc.Strict.putSlice (be16 c.keepAlive)).andThen ((StrictFormat.strict c.clientId).bind
      ((strict_encodeLastWill c.lastWill).bind ((strict_encodeOption c.username).bind
        (strict_encodeOption c.password))))))).congr ⟨?_, ?_⟩ fun _ => ?_
  · rintro ⟨-, hid, hw, hu, hp⟩
    exact ⟨hid, hw, hu, hp⟩
  · rintro ⟨hid, hw, hu, hp⟩
    exact ⟨Protocol.fits_name _, hid, hw, hu, hp⟩
  · rw [Connect.wire, Connect.headWire, append_assoc]

theorem Packet.strict_encodeContent (p : Packet) : Enc.Strict p.encodeContent p.Fits p.wire := by
  cases p with
  | connect c => exact strict_encodeConnect c
  | publish p =>
    refine ((StrictFormat.strict p.topic).bind (p.strict_encodePacketId.bind
      (Enc.Strict.putSlice p.payload))).congr ?_ fun _ => rfl
    rw [and_true]
    rfl
  | connectAck a => exact Enc.Strict.putSlice _
  | publishAck id | publishReceived id | publishRelease id | publishComplete id
  | unsubscribeAck id => exact StrictFormat.strict id
  | subscribe id fs =>
    have hfs : Enc.Strict (fs.forM fun f => do Encode.encode f.1; Enc.putU8 (toU8 f.2))
        (∀ f ∈ fs, Codec.Fits f.1) (fs.flatMap filterWire) :=
      Enc.Spec.forM fs fun f => ((StrictFormat.strict f.1).bind (Enc.Strict.putU8 _)).congr
        (by rw [and_true]) fun _ => rfl
    exact .andThen (StrictFormat.strict id) hfs
  | subscribeAck id status =>
    exact .andThen (StrictFormat.strict id) (Enc.Strict.putSlice _)
  | unsubscribe id fs =>
    exact .andThen (StrictFormat.strict id) (Enc.Spec.forM fs fun f => StrictFormat.strict f)
  | pingRequest | pingResponse | disconnect => exact Enc.Strict.pure

/-! ## Sizes -/

theorem getEncodedSubscribeSize_eq (fs : List (String × QoS)) :
    getEncodedSubscribeSize fs = 2 + (fs.flatMap filterWire).length := by
  have hsum : (fs.map fun f => (utf8 f.1).length + 3).sum =
      fs.foldl (fun acc f => acc + 2 + (utf8 f.1).length + 1) 0 := by
    rw [sum_eq_foldl, foldl_map]
    refine congrArg (fun g => fs.foldl g 0) (funext₂ fun acc f => ?_)
    omega
  rw [getEncodedSubscribeSize, ← hsum, length_flatMap]
  congr 3
  refine funext fun f => ?_
  have hwire : (wire f.1).length = 2 + (utf8 f.1).length := length_sliceWire _
  rw [filterWire, length_append, hwire, length_singleton]
  omega

theorem getEncodedUnsubscribeSize_eq (fs : List String) :
    getEncodedUnsubscribeSize fs = 2 + (fs.flatMap wire).length := by
  have hsum : (fs.map fun f => 2 + (utf8 f).length).sum =
      fs.foldl (fun acc f => acc + 2 + (utf8 f).length) 0 := by
    rw [sum_eq_foldl, foldl_map]
    exact congrArg (fun g => fs.foldl g 0) (funext₂ fun acc f => (Nat.add_assoc ..).symm)
  rw [getEncodedUnsubscribeSize, ← hsum, length_flatMap]
  congr 3
  exact funext fun f => (length_sliceWire (utf8 f)).symm

theorem Connect.length_wire (c : Connect) : c.wire.length = c.getEncodedSize := by
  have hwill : ((c.lastWill.map LastWill.wire).getD []).length = (c.lastWill.map fun will =>
      2 + (utf8 will.topic).length + 2 + will.message.length).getD 0 := by
    cases c.lastWill with
    | none => rfl
    | some w =>
      rw [Option.map_some, Option.getD_some, LastWill.wire, length_append]
      exact (congrArg₂ (· + ·) (length_sliceWire _) (length_sliceWire _)).trans
        (Nat.add_assoc ..).symm
  have husername : (optWire c.username).length =
      (c.username.map fun s => 2 + (utf8 s).length).getD 0 := length_optWire _
  have hpassword : (optWire c.password).length =
      (c.password.map fun s => 2 + s.length).getD 0 := length_optWire _
  have hid : (Codec.wire c.clientId).length = 2 + (utf8 c.clientId).length := length_sliceWire _
  have hka : (be16 c.keepAlive).length = 2 := rfl
  simp only [wire, headWire, length_append, length_sliceWire, hid, hka, hwill, husername,
    hpassword, length_cons, length_nil, getEncodedSize]
  omega

theorem Packet.length_wire {p : Packet} (h : p.Fits) : p.wire.length = p.getEncodedSize := by
  cases p with
  | connect c => exact c.length_wire
  | publish p =>
    have htopic : (Codec.wire p.topic).length = 2 + (utf8 p.topic).length := length_sliceWire _
    rw [wire, length_append, length_append, Publish.length_idWire h.2, htopic,
      getEncodedSize, getEncodedPublishSize]
    cases p.qos <;> simp <;> omega
  | subscribe id fs =>
    rw [getEncodedSize, getEncodedSubscribeSize_eq, wire, length_append]
    rfl
  | subscribeAck id status =>
    rw [wire, length_append, length_map]
    rfl
  | unsubscribe id fs =>
    rw [getEncodedSize, getEncodedUnsubscribeSize_eq, wire, length_append]
    rfl
  | connectAck _ | publishAck _ | publishReceived _ | publishRelease _ | publishComplete _
  | unsubscribeAck _ | pingRequest | pingResponse | disconnect => rfl

/-! ## Reading -/

namespace Connect

theorem record_flags (c : Connect) : ConnectFlags.Record c.flags c.username.isSome c.password.isSome
    (c.lastWill.map fun w => (w.retain, w.qos)) c.cleanSession :=
  connectFlags_record ..

theorem reads_decodeName (p : Protocol) : Dec.Reads decodeName (sliceWire (utf8 p.name)) () := by
  unfold Protocol.name
  split_ifs
  · exact .bind (reads_getU16 6) (.bind_last (.splitTo (by decide)) (.ensure rfl _))
  · exact .bind (reads_getU16 4) (.bind_last (.splitTo (by decide)) (.ensure rfl _))

theorem reads_decodeConnectHead (c : Connect) :
    Dec.Reads decodeConnectHead c.headWire (4, c.flags) := by
  have hf := c.record_flags
  have hwill : hasFlag c.flags ConnectFlags.will = true ∨
      c.flags &&& ConnectFlags.willQos = 0 ∧ hasFlag c.flags ConnectFlags.willRetain = false := by
    rcases hw : c.lastWill with _ | w
    · exact Or.inr (hf.noWill (by rw [hw]; rfl))
    · exact Or.inl (hf.will.trans (by rw [hw]; rfl))
  refine (reads_decodeName c.protocol).bind ?_
  change Dec.Reads _ ([4] ++ [c.flags]) _
  refine .bind (.getU8 4) (.bind_nil (.ensure (Or.inl rfl) _) ?_)
  refine .bind_last (.getU8 c.flags) (.bind_nil (.ensure hf.reserved _) ?_)
  exact .bind_nil (.ensure hwill _) (.pure _)

theorem reads_decodeConnectPacket {c : Connect} (h : c.Fits)
    (hr : c.clientId ≠ "" ∨ c.cleanSession = true) :
    Dec.Reads decodeConnectPacket c.wire { c with protocol := ⟨4⟩, cert := none } := by
  have hf := c.record_flags
  have hwill : ∀ w ∈ c.lastWill, Dec.Reads (LastWill.decode c.flags) w.wire w := fun w hmem => by
    have hmem' := Option.mem_map_of_mem (fun w : LastWill => (w.retain, w.qos)) hmem
    refine (WireFormat.reads w.topic (h.lastWill w hmem).1).bind ?_
    refine (WireFormat.reads w.message (h.lastWill w hmem).2).bind_last ?_
    rw [hf.willRetain _ hmem', hf.willQos _ hmem']
    exact .bind_nil (PrimEnum.reads_tryFrom w.qos) (.pure w)
  have hlen : 10 ≤ c.wire.length := by
    rw [c.length_wire, getEncodedSize]
    have : 4 ≤ (utf8 c.protocol.name).length := by
      unfold Protocol.name
      split_ifs <;> decide
    omega
  refine .need hlen (c.reads_decodeConnectHead.bind ?_)
  refine (WireFormat.reads c.keepAlive trivial).bind ?_
  refine (WireFormat.reads c.clientId h.clientId).bind
    (.bind_nil (.ensure (by rwa [hf.cleanStart]) _) ?_)
  refine (reads_decodeIf (hf.will.trans Option.isSome_map) hwill).bind ?_
  refine (reads_decodeIf hf.username fun a ha => WireFormat.reads a (h.username a ha)).bind ?_
  refine (reads_decodeIf hf.password fun a ha => WireFormat.reads a (h.password a ha)).bind_last ?_
  rw [hf.cleanStart]
  exact .pure _

end Connect

theorem returns_decodeConnectAckPacket (a : ConnectAck) :
    Dec.Returns decodeConnectAckPacket [a.sessionPresent.toUInt8, toU8 a.returnCode] a := by
  obtain ⟨code, sp⟩ := a
  have hflags : sp.toUInt8 &&& 0b11111110 = 0 ∧ hasFlag sp.toUInt8 0b00000001 = sp := by
    cases sp <;> decide
  change Dec.Returns _ ([sp.toUInt8] ++ [toU8 code]) _
  refine .need le_rfl (.bind (.getU8 _) (.bind_nil (.ensure hflags.1 _) ?_))
  refine .bind_last (.getU8 _) (.bind_nil (PrimEnum.reads_tryFrom code) ?_)
  rw [hflags.2]
  exact (Dec.Reads.pure _).returns

theorem returns_decodePublishPacket {p : Publish} (h : Fits p.topic)
    (hid : Publish.IdOk p.qos p.packetId) (hr : p.topic ≠ "") :
    Dec.Returns (decodePublishPacket ((Packet.publish p).firstByte &&& 0b00001111))
      (Packet.publish p).wire { p with properties := none } := by
  obtain ⟨-, hqos, hdup, hretain⟩ := publishFlags_spec p.qos p.dup p.retain
  refine .bind (WireFormat.reads p.topic h) (.bind_nil (.ensure hr _) ?_)
  refine .bind_nil (a := p.qos) ?_ (.bind (Publish.reads_decodePacketId hid) (returns_takeRest ?_))
  · rw [Packet.firstByte, hqos]
    exact PrimEnum.reads_tryFrom p.qos
  · rw [Packet.firstByte, hdup, hretain]
    exact (Dec.Reads.pure _).returns

theorem returns_decodeAck (f : NonZeroU16 → Packet) (id : NonZeroU16) :
    Dec.Returns (decodeAck f) (wire id) (f id) :=
  .bind_last (WireFormat.reads id trivial) .atEnd

theorem reads_readFilter (done : List (String × QoS)) {f : String × QoS} (h : Fits f.1)
    (hne : f.1 ≠ "") : Dec.Reads (readFilter done) (filterWire f) (done ++ [f]) := by
  have hqos : toU8 f.2 &&& 0b00000011 = toU8 f.2 := by
    cases f.2 <;> decide
  refine (WireFormat.reads f.1 h).bind (.bind_nil (.ensure hne _) ?_)
  refine .need le_rfl ((Dec.Reads.getU8 _).bind_last ?_)
  rw [hqos]
  exact .bind_nil (PrimEnum.reads_tryFrom f.2) (.pure _)

theorem reads_readUnsubscribeFilter (done : List String) {f : String} (h : Fits f) (hne : f ≠ "") :
    Dec.Reads (readUnsubscribeFilter done) (wire f) (done ++ [f]) :=
  (WireFormat.reads f h).bind_last (.bind_nil (.ensure hne _) (.pure _))

theorem returns_decodeFilters {α : Type} {step : List α → Dec DecodeError (List α)} {w : α → Bytes}
    {fs : List α} (mk : NonZeroU16 → List α → Packet) (id : NonZeroU16) (hw : ∀ f, w f ≠ [])
    (h : ∀ done, ∀ f ∈ fs, Dec.Reads (step done) (w f) (done ++ [f])) (hne : fs ≠ []) :
    Dec.Returns (do
      let packetId ← decode
      let topicFilters ← Dec.whileRemaining step []
      Dec.ensure (topicFilters ≠ []) .invalidTopicFilter
      return mk packetId topicFilters) (wire id ++ fs.flatMap w) (mk id fs) := by
  refine .bind (WireFormat.reads id trivial) (.loop (.collect hw h) ?_)
  exact .bind_nil (.ensure hne _) (Dec.Reads.pure (mk id fs)).returns

theorem SubscribeReturnCode.reads_ofU8 (c : SubscribeReturnCode) : Dec.Reads (ofU8 c.toU8) [] c := by
  cases c with
  | failure => exact .pure _
  | success qos =>
    have hne : ¬ Codec.toU8 qos = 0x80 := by
      cases qos <;> decide
    rw [ofU8, toU8, if_neg hne]
    exact .bind_nil (PrimEnum.reads_tryFrom qos) (.pure _)

theorem returns_decodeSubscribeAckPacket (id : NonZeroU16) (status : List SubscribeReturnCode) :
    Dec.Returns decodeSubscribeAckPacket (wire id ++ status.map SubscribeReturnCode.toU8)
      (.subscribeAck id status) := by
  have hstatus := Dec.Reads.mapM (l := status) fun c => SubscribeReturnCode.reads_ofU8 c
  exact .bind (WireFormat.reads id trivial) (returns_takeRest (hstatus.returns.map _))

theorem Packet.returns_decodePacket {p : Packet} (h : p.Fits) (hr : p.Readable) :
    Dec.Returns (decodePacket p.firstByte) p.wire p.normal := by
  have hstr (s : String) : Codec.wire s ≠ [] := by
    rw [← length_pos_iff_ne_nil, show (Codec.wire s).length = _ from length_sliceWire _]
    omega
  cases p with
  | connect c => exact (c.reads_decodeConnectPacket h hr).returns.map _
  | connectAck a => exact (returns_decodeConnectAckPacket a).map _
  | publish p =>
    have hfirst : PacketType.publishStart ≤ (publish p).firstByte ∧
        (publish p).firstByte ≤ PacketType.publishEnd :=
      (publishFlags_spec p.qos p.dup p.retain).1
    have hconnect : (publish p).firstByte ≠ PacketType.connect := fun heq =>
      absurd (heq ▸ hfirst.1) (by decide)
    have hconnack : (publish p).firstByte ≠ PacketType.connack := fun heq =>
      absurd (heq ▸ hfirst.1) (by decide)
    rw [decodePacket, if_neg hconnect, if_neg hconnack, if_pos hfirst]
    exact (returns_decodePublishPacket h.1 h.2 hr).map _
  | publishAck id | publishReceived id | publishRelease id | publishComplete id
  | unsubscribeAck id => exact returns_decodeAck _ id
  | subscribe id fs =>
    exact returns_decodeFilters .subscribe id (fun f => by simp [filterWire])
      (fun done f hf => reads_readFilter done (h f hf) (hr.2 f hf)) hr.1
  | subscribeAck id status => exact returns_decodeSubscribeAckPacket id status
  | unsubscribe id fs =>
    exact returns_decodeFilters .unsubscribe id hstr
      (fun done f hf => reads_readUnsubscribeFilter done (h f hf) (hr.2 f hf)) hr.1
  | pingRequest | pingResponse | disconnect => exact ⟨[], rfl⟩

/-! ## Frames -/

namespace Packet

def frame (p : Packet) : Bytes := Framing.frame p.firstByte p.wire

def contentSize (p : Packet) : ℕ := p.getEncodedSize % 2 ^ 32

theorem spec_encode (p : Packet) :
    Enc.Spec (p.encode p.contentSize) (p.contentSize ≤ maxPacketSize ∧ p.Fits)
      (p.contentSize ≤ maxPacketSize) (p.firstByte :: (varLen p.contentSize ++ p.wire)) := by
  have hwrite : Enc.Spec
      (do Enc.putU8 p.firstByte; writeVariableLength p.contentSize; p.encodeContent)
      (p.contentSize ≤ maxPacketSize ∧ p.Fits) (p.contentSize ≤ maxPacketSize)
      (p.firstByte :: (varLen p.contentSize ++ p.wire)) := by
    refine ((Enc.Strict.putU8 _).andThen ((spec_writeVariableLength _).bind fun _ =>
      p.strict_encodeContent)).congr Iff.rfl (fun _ => ?_) fun _ => rfl
    exact ⟨fun h => not_not.1 h.1, fun h => ⟨fun hn => hn h, fun _ => trivial⟩⟩
  cases p
  case pingRequest | pingResponse | disconnect =>
    refine Enc.Spec.congr (Enc.Strict.putSlice _) ?_ (fun h => absurd trivial h) fun _ => rfl
    exact iff_of_true trivial ⟨Nat.zero_le _, trivial⟩
  all_goals exact hwrite

theorem normal_eq_self {p : Packet} (hc : ∀ c, p ≠ .connect c)
    (hp : ∀ q, p = .publish q → q.properties = none) : p.normal = p := by
  cases p with
  | connect c => exact absurd rfl (hc c)
  | publish q =>
    rw [normal, ← hp q rfl]
  | _ => rfl

end Packet

namespace Codec

theorem lacksPacketId_eq_false {p : Packet} (h : p.Fits) : lacksPacketId p = false := by
  cases p with
  | publish q =>
    obtain ⟨-, hid⟩ := h
    cases hq : q.packetId with
    | none =>
      have hqos : q.qos = .atMostOnce := by simpa [Publish.IdOk, hq] using hid
      simp [lacksPacketId, hqos]
    | some id => simp [lacksPacketId, hq]
  | _ => rfl

theorem encode_eq (c : Codec) {p : Packet} (h : p.Fits) (hn : p.getEncodedSize ≤ maxPacketSize)
    (buf : Bytes) : c.encode p buf = (.ok (), buf ++ p.frame) := by
  have hmod : p.getEncodedSize % 2 ^ 32 = p.getEncodedSize :=
    Nat.mod_eq_of_lt (hn.trans_lt (by decide))
  have hsize : p.contentSize = p.wire.length := hmod.trans (Packet.length_wire h).symm
  rw [encode, lacksPacketId_eq_false h, Packet.frame, Framing.frame, ← hsize]
  exact p.spec_encode.run ⟨hmod.trans_le hn, h⟩ buf

theorem decode_frame {d : Codec} {p : Packet} (hd : d.state = .frameHeader) (h : p.Fits)
    (hr : p.Readable) (hn : p.getEncodedSize ≤ maxPacketSize)
    (hin : Framing.SizeOk d.maxSize.toNat p.getEncodedSize) (rest : Bytes) :
    d.decode (p.frame ++ rest) = (.ok (some (p.normal, p.getEncodedSize)), d, rest) := by
  obtain ⟨left, hp⟩ := Packet.returns_decodePacket h hr
  rw [← Packet.length_wire h] at hn hin ⊢
  simp only [decode, hd, Packet.frame, Framing.decode_frame hn hin, hp]
  rw [← hd]

/-- Every packet but CONNECT comes back as it was written, behind a header that announces its
length, if the limit of the receiver admits a packet of this length. -/
theorem decode_encode (c d : Codec) {p : Packet} (hc : ∀ q, p ≠ .connect q) (h : p.Fits)
    (hr : p.Readable) (hp : ∀ q, p = .publish q → q.properties = none)
    (hn : p.getEncodedSize ≤ maxPacketSize) (hd : d.state = .frameHeader)
    (hin : Framing.SizeOk d.maxSize.toNat p.getEncodedSize) :
    ∃ len body : Bytes,
      (∀ buf, c.encode p buf = (.ok (), buf ++ (p.firstByte :: (len ++ body)))) ∧
      decodeVariableLength (len ++ body) = .ok (some (p.getEncodedSize, len.length)) ∧
      body.length = p.getEncodedSize ∧
      ∀ rest, d.decode (p.firstByte :: (len ++ body) ++ rest) =
        (.ok (some (p, p.getEncodedSize)), d, rest) := by
  refine ⟨varLen p.wire.length, p.wire, c.encode_eq h hn, ?_, Packet.length_wire h, fun rest => ?_⟩
  · rw [Packet.length_wire h]
    exact decodeVariableLength_append (reads_decodeVariableLengthCursor hn) _
  · have hframe := decode_frame hd h hr hn hin rest
    rwa [Packet.normal_eq_self hc hp] at hframe

/-- A SUBSCRIBE. -/
theorem decode_encode_subscribe :
    ∃ len body : Bytes,
      (∀ buf, (Codec.new 0).encode (.subscribe ⟨1, by decide⟩ [("a", .atLeastOnce)]) buf =
        (.ok (), buf ++ (0x82 :: (len ++ body)))) ∧
      decodeVariableLength (len ++ body) = .ok (some (6, len.length)) ∧ body.length = 6 ∧
      ∀ rest, (Codec.new 0).decode (0x82 :: (len ++ body) ++ rest) =
        (.ok (some (.subscribe ⟨1, by decide⟩ [("a", .atLeastOnce)], 6)), Codec.new 0, rest) :=
  decode_encode (Codec.new 0) (Codec.new 0) (fun _ => by simp)
    (fun f hf => by rw [List.mem_singleton.1 hf]; show (utf8 "a").length ≤ 65535; decide)
    ⟨by simp, fun f hf => by rw [List.mem_singleton.1 hf]; decide⟩ (fun _ h => by cases h)
    (by decide) rfl (Or.inl rfl)

end Codec

end FerroMq.Codec.V3
