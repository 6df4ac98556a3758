import FerroMq.Codec.V3.RoundTrip

/-!
# What the MQTT 3 decoder accepts

The decoder does not panic on any body (`safe_decodePacket`).  A CONNECT is written with the level of 3.1.1, so
it comes back as it was read exactly if it has that level (`connect_reread_iff`).
-/

set_option linter.dupNamespace false

namespace FerroMq.Codec.V3

open Lib List

/-! ## CONNECT -/

theorem safe_decodeName {src : Bytes} (h : 10 ≤ src.length) :
    Dec.Safe decodeName src fun _ rest => 2 ≤ rest.length := by
  refine .bind ((safe_getU16 (by omega)).mono ?_)
  rintro len rest rfl
  rw [length_append, be16, length_cons, length_singleton] at h
  refine .ite ?_ (.ite ?_ .fail)
  all_goals
    refine .bind (.splitTo (by omega) (.ensure fun _ => ?_))
    rw [length_drop]
    omega

theorem safe_decodeConnectHead {src : Bytes} (h : 10 ≤ src.length) :
    Dec.Safe decodeConnectHead src fun head _ => head.1 = 4 ∨ head.1 = 3 := by
  refine .bind ((safe_decodeName h).mono fun _ rest hrest => ?_)
  refine .bind (.getU8 (ne_nil_of_length_pos (by omega)) ?_)
  rintro level rest rfl
  rw [length_cons] at hrest
  refine .bind (.ensure fun hlevel => .bind (.getU8 (ne_nil_of_length_pos (by omega)) ?_))
  rintro flags rest rfl
  exact .bind (.ensure fun _ => .bind (.ensure fun _ => .pure hlevel))

theorem LastWill.safe_decode (flags : UInt8) (src : Bytes) :
    Dec.Safe (LastWill.decode flags) src fun w _ => w.Fits := by
  refine .bind ((WireFormat.safe src).mono fun topic rest htopic => ?_)
  refine .bind ((WireFormat.safe rest).mono fun message rest' hmessage => ?_)
  exact .bind (PrimEnum.safe_tryFrom fun qos _ => .pure ⟨htopic.1, hmessage.1⟩)

theorem safe_decodeIf_fits {α : Type} {d : Dec DecodeError α} {P : α → Prop} {src : Bytes} (c : Bool)
    (h : Dec.Safe d src fun a _ => P a) : Dec.Safe (decodeIf c d) src fun o _ => ∀ a ∈ o, P a := by
  unfold decodeIf
  split_ifs
  · refine .bind (h.mono fun a _ ha => .pure fun a' ha' => ?_)
    rwa [← Option.mem_some_iff.1 ha']
  · exact .pure nofun

/-- A CONNECT that was accepted can be written. -/
structure Connect.Accepted (c : Connect) : Prop where
  fits : c.Fits
  clientId : c.clientId ≠ "" ∨ c.cleanSession = true
  level : c.protocol.level = 4 ∨ c.protocol.level = 3
  cert : c.cert = none

variable (src : Bytes)

theorem safe_decodeConnectPacket :
    Dec.Safe decodeConnectPacket src fun c _ => c.Accepted := by
  refine .bind (.remaining (.bind (.ensure fun hlen => ?_)))
  refine .bind ((safe_decodeConnectHead hlen).mono fun head rest hlevel => ?_)
  refine .bind ((WireFormat.safe rest).mono fun keepAlive rest _ => ?_)
  refine .bind ((WireFormat.safe rest).mono fun clientId rest hid => ?_)
  refine .bind (.ensure fun hclient => ?_)
  refine .bind ((safe_decodeIf_fits _ (LastWill.safe_decode _ rest)).mono fun lastWill rest hwill => ?_)
  have husername := safe_decodeIf_fits (hasFlag head.2 ConnectFlags.username)
    ((WireFormat.safe (α := String) rest).mono fun _ _ h => h.1)
  refine .bind (husername.mono fun username rest husername => ?_)
  have hpassword := safe_decodeIf_fits (hasFlag head.2 ConnectFlags.password)
    ((WireFormat.safe (α := Bytes) rest).mono fun _ _ h => h.1)
  refine .bind (hpassword.mono fun password rest hpassword => .pure ?_)
  exact ⟨⟨hid.1, hwill, husername, hpassword⟩, hclient, hlevel, rfl⟩

theorem getD_map_le {α : Type} {o : Option α} {f : α → ℕ} {n : ℕ} (h : ∀ a ∈ o, f a ≤ n) :
    (o.map f).getD 0 ≤ n := by
  cases o with
  | none => exact Nat.zero_le n
  | some a => exact h a rfl

theorem Connect.getEncodedSize_le {c : Connect} (h : c.Fits) : c.getEncodedSize ≤ maxPacketSize := by
  have hname := Protocol.fits_name c.protocol
  have hid : (utf8 c.clientId).length ≤ 65535 := h.clientId
  have hwill : (c.lastWill.map fun w => 2 + (utf8 w.topic).length + 2 + w.message.length).getD 0 ≤
      131074 := getD_map_le fun w hw => by
    have htopic : (utf8 w.topic).length ≤ 65535 := (h.lastWill w hw).1
    have hmessage : w.message.length ≤ 65535 := (h.lastWill w hw).2
    omega
  have husername : (c.username.map fun s => 2 + (utf8 s).length).getD 0 ≤ 2 + 65535 :=
    getD_map_le fun s hs => Nat.add_le_add_left (h.username s hs) 2
  have hpassword : (c.password.map fun s => 2 + s.length).getD 0 ≤ 2 + 65535 :=
    getD_map_le fun s hs => Nat.add_le_add_left (h.password s hs) 2
  unfold getEncodedSize maxPacketSize
  omega

theorem Connect.Accepted.reread {c : Connect} (h : c.Accepted) (encoder : Codec) :
    (∀ buf, encoder.encode (.connect c) buf = (.ok (), buf ++ (Packet.connect c).frame)) ∧
      (Codec.new 0).decode (Packet.connect c).frame =
        (.ok (some (.connect { c with protocol := ⟨4⟩ }, c.getEncodedSize)), Codec.new 0, []) := by
  have hsize : (Packet.connect c).getEncodedSize ≤ maxPacketSize := getEncodedSize_le h.fits
  refine ⟨Codec.encode_eq encoder h.fits hsize, ?_⟩
  have hframe := Codec.decode_frame (d := Codec.new 0) rfl (p := .connect c) h.fits h.clientId hsize
    (.inl rfl) []
  rw [append_nil, Packet.normal, ← h.cert] at hframe
  exact hframe

/-- A CONNECT that was accepted comes back as it was, if it is written and read again, exactly if its
level is that of 3.1.1. -/
theorem connect_reread_iff {body rest : Bytes} {c : Connect}
    (h : decodeConnectPacket body = .ok (c, rest)) (encoder : Codec) :
    (∃ frame, (∀ buf, encoder.encode (.connect c) buf = (.ok (), buf ++ frame)) ∧
      ∃ size, (Codec.new 0).decode frame = (.ok (some (.connect c, size)), Codec.new 0, [])) ↔
      c.protocol.level = 4 := by
  obtain ⟨hencode, hdecode⟩ := ((safe_decodeConnectPacket body).of_ok h).reread encoder
  constructor
  · rintro ⟨frame, hframe, size, hread⟩
    have heq : (Packet.connect c).frame = frame := by
      have hbuf := (hencode []).symm.trans (hframe [])
      exact (Prod.mk.inj hbuf).2
    rw [heq, hread] at hdecode
    have hconnect : c = { c with protocol := ⟨4⟩ } := by
      injection hdecode with hanswer
      simp only [Except.ok.injEq, Option.some.injEq, Prod.mk.injEq, Packet.connect.injEq] at hanswer
      exact hanswer.1
    rw [hconnect]
  · intro hlevel
    refine ⟨_, hencode, c.getEncodedSize, ?_⟩
    rw [hdecode]
    obtain ⟨⟨level⟩, _⟩ := c
    obtain rfl : level = 4 := hlevel
    rfl

/-- A CONNECT of 3.1.1 with an empty client id. -/
theorem connect_reread_iff_311 :
    ∃ frame, (∀ buf, (Codec.new 0).encode (.connect ⟨⟨4⟩, true, 60, none, "", none, none, none⟩) buf =
        (.ok (), buf ++ frame)) ∧
      ∃ size, (Codec.new 0).decode frame =
        (.ok (some (.connect ⟨⟨4⟩, true, 60, none, "", none, none, none⟩, size)), Codec.new 0, []) :=
  (connect_reread_iff (show decodeConnectPacket [0, 4, 77, 81, 84, 84, 4, 2, 0, 60, 0, 0] =
    .ok (⟨⟨4⟩, true, 60, none, "", none, none, none⟩, []) by decide +kernel) (Codec.new 0)).2 rfl

/-- A CONNECT of 3.1 is written with the name of 3.1 and the level of 3.1.1. -/
theorem connect_reread_31 :
    decodeConnectPacket [0, 6, 77, 81, 73, 115, 100, 112, 3, 2, 0, 60, 0, 0] =
        .ok (⟨⟨3⟩, true, 60, none, "", none, none, none⟩, []) ∧
      (Codec.new 0).encode (.connect ⟨⟨3⟩, true, 60, none, "", none, none, none⟩) [] =
        (.ok (), [16, 14, 0, 6, 77, 81, 73, 115, 100, 112, 4, 2, 0, 60, 0, 0]) ∧
      (Codec.new 0).decode [16, 14, 0, 6, 77, 81, 73, 115, 100, 112, 4, 2, 0, 60, 0, 0] =
        (.ok (some (.connect ⟨⟨4⟩, true, 60, none, "", none, none, none⟩, 14)), Codec.new 0, []) := by
  decide +kernel

/-! ## The other packets -/

theorem safe_decodeConnectAckPacket :
    Dec.Safe decodeConnectAckPacket src fun _ _ => True := by
  refine .bind (.remaining (.bind (.ensure fun hlen => ?_)))
  refine .bind (.getU8 (ne_nil_of_length_pos (by omega)) ?_)
  rintro flags rest rfl
  rw [length_cons] at hlen
  refine .bind (.ensure fun _ => .bind (.getU8 (ne_nil_of_length_pos (by omega)) ?_))
  exact fun code rest _ => .bind (PrimEnum.safe_tryFrom fun _ _ => .pure trivial)

theorem safe_decodePublishPacket (packetFlags : UInt8) (src : Bytes) :
    Dec.Safe (decodePublishPacket packetFlags) src fun _ _ => True := by
  refine .bind ((WireFormat.safe src).mono fun topic rest _ => .bind (.ensure fun _ => ?_))
  refine .bind (PrimEnum.safe_tryFrom fun qos _ => ?_)
  exact .bind ((Publish.safe_decodePacketId qos rest).mono fun packetId rest _ => trivial)

theorem safe_decodeAck (f : NonZeroU16 → Packet) (src : Bytes) :
    Dec.Safe (decodeAck f) src fun _ _ => True := by
  refine .bind ((WireFormat.safe src).mono fun packetId rest _ => ?_)
  exact .bind (.hasRemaining (.bind (.ensure fun _ => .pure trivial)))

theorem safe_readFilter (topicFilters : List (String × QoS)) (src : Bytes) :
    Dec.Safe (readFilter topicFilters) src fun _ _ => True := by
  refine .bind ((WireFormat.safe src).mono fun topic rest _ => .bind (.ensure fun _ => ?_))
  refine .bind (.remaining (.bind (.ensure fun hlen => ?_)))
  refine .bind (.getU8 (ne_nil_of_length_pos hlen) fun b rest _ => ?_)
  exact .bind (PrimEnum.safe_tryFrom fun _ _ => .pure trivial)

theorem safe_decodeSubscribePacket :
    Dec.Safe decodeSubscribePacket src fun _ _ => True := by
  refine .bind ((WireFormat.safe src).mono fun packetId rest _ => ?_)
  refine .bind ((Dec.Safe.whileRemaining (fun a src _ _ => safe_readFilter a src) trivial).mono ?_)
  exact fun topicFilters rest _ => .bind (.ensure fun _ => .pure trivial)

theorem SubscribeReturnCode.safe_ofU8 (code : UInt8) (src : Bytes) :
    Dec.Safe (ofU8 code) src fun _ rest => rest = src :=
  .ite (.pure rfl) (.bind (PrimEnum.safe_tryFrom fun _ _ => .pure rfl))

theorem safe_decodeSubscribeAckPacket :
    Dec.Safe decodeSubscribeAckPacket src fun _ _ => True := by
  refine .bind ((WireFormat.safe src).mono fun packetId rest _ => ?_)
  change Dec.Safe (rest.mapM SubscribeReturnCode.ofU8 >>= _) [] _
  exact .bind ((Dec.Safe.mapM fun code => SubscribeReturnCode.safe_ofU8 code []).mono fun _ _ _ =>
    .pure trivial)

theorem safe_readUnsubscribeFilter (topicFilters : List String) (src : Bytes) :
    Dec.Safe (readUnsubscribeFilter topicFilters) src fun _ _ => True :=
  .bind ((WireFormat.safe src).mono fun _ _ _ => .bind (.ensure fun _ => .pure trivial))

theorem safe_decodeUnsubscribePacket :
    Dec.Safe decodeUnsubscribePacket src fun _ _ => True := by
  refine .bind ((WireFormat.safe src).mono fun packetId rest _ => ?_)
  refine .bind ((Dec.Safe.whileRemaining
    (fun a src _ _ => safe_readUnsubscribeFilter a src) trivial).mono ?_)
  exact fun topicFilters rest _ => .bind (.ensure fun _ => .pure trivial)

/-- No body makes the decoder read behind its end. -/
theorem safe_decodePacket (firstByte : UInt8) (src : Bytes) :
    Dec.Safe (decodePacket firstByte) src fun _ _ => True := by
  unfold decodePacket
  refine .ite (.bind ((safe_decodeConnectPacket src).mono fun _ _ _ => .pure trivial)) ?_
  refine .ite (.bind ((safe_decodeConnectAckPacket src).mono fun _ _ _ => .pure trivial)) ?_
  refine .ite (.bind ((safe_decodePublishPacket _ src).mono fun _ _ _ => .pure trivial)) ?_
  refine .ite (safe_decodeAck _ src) (.ite (safe_decodeAck _ src) ?_)
  refine .ite (safe_decodeAck _ src) (.ite (safe_decodeAck _ src) ?_)
  refine .ite (safe_decodeSubscribePacket src) (.ite (safe_decodeSubscribeAckPacket src) ?_)
  refine .ite (safe_decodeUnsubscribePacket src) (.ite (safe_decodeAck _ src) ?_)
  exact .ite (.pure trivial) (.ite (.pure trivial) (.ite (.pure trivial) .fail))

end FerroMq.Codec.V3
