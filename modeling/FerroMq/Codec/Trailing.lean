import FerroMq.Codec.V3.Decode
import FerroMq.Codec.V5.Decode

/-!
# Bytes behind a packet

Which decoders read a body to its end.  The dispatchers check nothing: the decoders of CONNECT, PINGREQ and
PINGRESP, and for MQTT 3 also those of CONNACK and DISCONNECT, stop where their packet ends (`consumed_iff`).
-/

namespace FerroMq.Codec

open Lib List

theorem takes_decode {α : Type} [WireFormat α] {n : ℕ} (h : ∀ a : α, n ≤ (wire a).length) :
    Dec.Takes n (decode : Dec DecodeError α) := by
  refine .of_safe fun src => (WireFormat.safe src).mono fun a rest hsrc => ?_
  rw [hsrc.2, length_append, Nat.add_comm]
  exact Nat.add_le_add_right (h a) _

theorem takes_decode_string : Dec.Takes 1 (decode : Dec DecodeError String) := by
  refine takes_decode fun s => ?_
  change 1 ≤ (sliceWire (utf8 s)).length
  rw [length_sliceWire]
  omega

theorem takes_tryFrom {α : Type} [PrimEnum α] (v : UInt8) :
    Dec.Takes 0 (PrimEnum.tryFrom v : Dec DecodeError α) :=
  .of_safe fun _ => PrimEnum.safe_tryFrom fun _ _ => le_rfl

theorem drains_takeRest : Dec.Drains takeRest := by
  intro src a rest h
  exact (Prod.mk.inj (Except.ok.inj h)).2.symm

/-! ## MQTT 3 -/

namespace V3

theorem takes_readFilter (l : List (String × QoS)) : Dec.Takes 1 (readFilter l) :=
  takes_decode_string.bind fun _ => (Dec.Takes.ensure _ _).bind fun _ => Dec.Takes.remaining.bind fun _ =>
    (Dec.Takes.ensure _ _).bind fun _ => (Dec.Takes.getU8.mono (Nat.zero_le 1)).bind fun _ =>
      (takes_tryFrom _).bind fun _ => .pure _

theorem takes_readUnsubscribeFilter (l : List String) : Dec.Takes 1 (readUnsubscribeFilter l) :=
  takes_decode_string.bind fun _ => (Dec.Takes.ensure _ _).bind fun _ => .pure _

theorem drains_decodePublishPacket (flags : UInt8) : Dec.Drains (decodePublishPacket flags) :=
  .bind fun _ => .bind fun _ => .bind fun _ => .bind fun _ => drains_takeRest.followed fun _ => .pure _

theorem drains_decodeAck (f : NonZeroU16 → Packet) : Dec.Drains (decodeAck f) :=
  .bind fun _ => .atEnd _ _

theorem drains_decodeSubscribePacket : Dec.Drains decodeSubscribePacket :=
  .bind fun _ => (Dec.Drains.whileRemaining takes_readFilter []).followed fun _ =>
    (Dec.Takes.ensure _ _).bind fun _ => .pure _

theorem drains_decodeUnsubscribePacket : Dec.Drains decodeUnsubscribePacket :=
  .bind fun _ => (Dec.Drains.whileRemaining takes_readUnsubscribeFilter []).followed fun _ =>
    (Dec.Takes.ensure _ _).bind fun _ => .pure _

theorem safe_ofU8 (code : UInt8) (src : Bytes) :
    Dec.Safe (SubscribeReturnCode.ofU8 code) src fun _ rest => rest = src :=
  .ite (.pure rfl) (.bind (PrimEnum.safe_tryFrom fun _ _ => .pure rfl))

theorem drains_decodeSubscribeAckPacket : Dec.Drains decodeSubscribeAckPacket := by
  refine .bind fun _ => drains_takeRest.followed fun codes => ?_
  refine Dec.Takes.bind (n := 0) (.of_safe fun src => ?_) fun _ => .pure _
  refine (Dec.Safe.mapM fun code => safe_ofU8 code src).mono fun _ rest h => ?_
  rw [h.2, Nat.add_zero]

/-- The packets that are not read to the end of the body. -/
def unchecked : List UInt8 :=
  [PacketType.connect, PacketType.connack, PacketType.pingreq, PacketType.pingresp,
    PacketType.disconnect]

theorem drains_decodePacket {firstByte : UInt8} (h : firstByte ∉ unchecked) :
    Dec.Drains (decodePacket firstByte) := by
  simp only [unchecked, mem_cons, not_mem_nil, or_false, not_or] at h
  obtain ⟨h₁, h₂, h₃, h₄, h₅⟩ := h
  rw [decodePacket, if_neg h₁, if_neg h₂, if_neg h₃, if_neg h₄, if_neg h₅]
  refine .ite ((drains_decodePublishPacket _).followed fun _ => .pure _) ?_
  refine .ite (drains_decodeAck _) (.ite (drains_decodeAck _) (.ite (drains_decodeAck _)
    (.ite (drains_decodeAck _) (.ite drains_decodeSubscribePacket
      (.ite drains_decodeSubscribeAckPacket (.ite drains_decodeUnsubscribePacket ?_))))))
  exact .ite (drains_decodeAck _) (.fail _)

def connectBody : Bytes := [0, 4, 77, 81, 84, 84, 4, 2, 0, 0, 0, 0]

theorem exists_trailing {firstByte : UInt8} (h : firstByte ∈ unchecked) :
    ∃ body, (decodePacket firstByte body).toOption.map Prod.snd = some [0] := by
  simp only [unchecked, mem_cons, not_mem_nil, or_false] at h
  rcases h with rfl | rfl | rfl | rfl | rfl
  · exact ⟨connectBody ++ [0], by decide +kernel⟩
  · exact ⟨[0, 0, 0], by decide +kernel⟩
  · exact ⟨[0], by decide +kernel⟩
  · exact ⟨[0], by decide +kernel⟩
  · exact ⟨[0], by decide +kernel⟩

end V3

/-! ## MQTT 5 -/

namespace V5

/-- What is left unread.  The loop over the codes of an answer to SUBSCRIBE or UNSUBSCRIBE reads to the
end of the source without advancing it. -/
def unread : Packet → Bytes → Bytes
  | .subscribeAck pkt, rest => rest.drop pkt.status.length
  | .unsubscribeAck pkt, rest => rest.drop pkt.status.length
  | _, rest => rest

/-- When `d` succeeds, nothing is left unread. -/
def ReadsAll (d : Dec DecodeError Packet) : Prop :=
  ∀ src p rest, d src = .ok (p, rest) → unread p rest = []

theorem unread_nil (p : Packet) : unread p [] = [] := by
  cases p with
  | subscribeAck | unsubscribeAck => exact drop_nil
  | _ => rfl

theorem readsAll_of_drains {α : Type} {d : Dec DecodeError α} (h : Dec.Drains d) (f : α → Packet) :
    ReadsAll (do return f (← d)) := by
  intro src p rest hp
  rw [h.followed (fun _ => .pure _) src p rest hp, unread_nil]

theorem ReadsAll.ite {c : Prop} [Decidable c] {d d' : Dec DecodeError Packet} (h : ReadsAll d)
    (h' : ReadsAll d') : ReadsAll (if c then d else d') := by
  split_ifs
  · exact h
  · exact h'

theorem drains_publish (flags : UInt8) : Dec.Drains (Publish.decode flags) :=
  .bind fun _ => .bind fun _ => .bind fun _ => .bind fun _ => drains_takeRest.followed fun _ => .pure _

theorem drains_decodeAck {R A : Type} [PrimEnum R] (mk : NonZeroU16 → R → AckProps.Acc → A)
    (success : R) : Dec.Drains (decodeAck mk success) :=
  .bind fun _ => .optional (.bind fun _ => .bind fun _ => .optional (.bind fun _ => .atEnd _ _))

theorem drains_connectAck : Dec.Drains ConnectAck.decode :=
  .bind fun _ => .bind fun _ => .bind fun _ => .bind fun _ => .bind fun _ => .bind fun _ =>
    .bind fun _ => .bind fun _ => .atEnd _ _

theorem drains_disconnect : Dec.Drains Disconnect.decode :=
  .optional (.bind fun _ => .bind fun _ => .optional (.bind fun _ => .bind fun _ => .atEnd _ _))

theorem drains_auth : Dec.Drains Auth.decode :=
  .optional (.bind fun _ => .bind fun _ => .optional (.bind fun _ => .bind fun _ => .atEnd _ _))

theorem takes_options : Dec.Takes 0 SubscriptionOptions.decode :=
  Dec.Takes.hasRemaining.bind fun _ => (Dec.Takes.ensure _ _).bind fun _ =>
    (Dec.Takes.getU8.mono (Nat.zero_le 1)).bind fun _ => (takes_tryFrom _).bind fun _ =>
      (takes_tryFrom _).bind fun _ => .pure _

theorem drains_subscribe : Dec.Drains Subscribe.decode := by
  have hstep (l : List (String × SubscriptionOptions)) : Dec.Takes 1 (Subscribe.readFilter l) :=
    takes_decode_string.bind fun _ => takes_options.bind fun _ => .pure _
  exact .bind fun _ => .bind fun _ => .bind fun _ => (Dec.Drains.whileRemaining hstep []).followed
    fun _ => (Dec.Takes.ensure _ _).bind fun _ => .pure _

theorem drains_unsubscribe : Dec.Drains Unsubscribe.decode := by
  have hstep (l : List String) : Dec.Takes 1 (Unsubscribe.readFilter l) :=
    takes_decode_string.bind fun _ => .pure _
  exact .bind fun _ => .bind fun _ => .bind fun _ => (Dec.Drains.whileRemaining hstep []).followed
    fun _ => (Dec.Takes.ensure _ _).bind fun _ => .pure _

theorem status_of_decodeStatusAck {R A : Type} [PrimEnum R] {mk : NonZeroU16 → AckProps.Acc → List R → A}
    {src rest : Bytes} {a : A} (h : decodeStatusAck mk src = .ok (a, rest)) :
    ∃ packetId acc status, a = mk packetId acc status ∧ rest.drop status.length = [] := by
  obtain ⟨packetId, src₁, -, h⟩ := Dec.bind_eq_ok h
  obtain ⟨acc, src₂, -, h⟩ := Dec.bind_eq_ok h
  obtain ⟨status, src₃, hstatus, h⟩ := Dec.bind_eq_ok h
  obtain ⟨rfl, rfl⟩ := Prod.mk.inj (Except.ok.inj h)
  have hsafe : Dec.Safe (decodeStatus : Dec DecodeError (List R)) src₂
      fun status rest => status.length = src₂.length ∧ rest = src₂ :=
    Dec.Safe.mapM fun code => PrimEnum.safe_tryFrom fun _ _ => rfl
  obtain ⟨hlen, rfl⟩ := hsafe.of_ok hstatus
  exact ⟨packetId, acc, status, rfl, drop_eq_nil_of_le hlen.ge⟩

theorem readsAll_statusAck {R A : Type} [PrimEnum R] {mk : NonZeroU16 → AckProps.Acc → List R → A}
    {f : A → Packet} (hf : ∀ packetId acc status rest,
      unread (f (mk packetId acc status)) rest = rest.drop status.length) :
    ReadsAll (do return f (← decodeStatusAck mk)) := by
  intro src p rest h
  obtain ⟨pkt, mid, hpkt, h⟩ := Dec.bind_eq_ok h
  obtain ⟨rfl, rfl⟩ := Prod.mk.inj (Except.ok.inj h)
  obtain ⟨packetId, acc, status, rfl, hdrop⟩ := status_of_decodeStatusAck hpkt
  rw [hf, hdrop]

theorem readsAll_subscribeAck : ReadsAll (do return .subscribeAck (← SubscribeAck.decode)) :=
  readsAll_statusAck fun _ _ _ _ => rfl

theorem readsAll_unsubscribeAck : ReadsAll (do return .unsubscribeAck (← UnsubscribeAck.decode)) :=
  readsAll_statusAck fun _ _ _ _ => rfl

def unchecked : List UInt8 := [PacketType.connect, PacketType.pingreq, PacketType.pingresp]

theorem readsAll_decodePacket {firstByte : UInt8} (h : firstByte ∉ unchecked) :
    ReadsAll (decodePacket firstByte) := by
  simp only [unchecked, mem_cons, not_mem_nil, or_false, not_or] at h
  obtain ⟨h₁, h₂, h₃⟩ := h
  rw [decodePacket, if_neg h₁, if_neg h₂, if_neg h₃]
  refine .ite (readsAll_of_drains (drains_publish _) _) (.ite (readsAll_of_drains (drains_decodeAck _ _) _)
    (.ite (readsAll_of_drains drains_subscribe _) (.ite readsAll_subscribeAck
      (.ite (readsAll_of_drains drains_unsubscribe _) (.ite readsAll_unsubscribeAck ?_)))))
  refine .ite (readsAll_of_drains drains_connectAck _) (.ite (readsAll_of_drains drains_disconnect _)
    (.ite (readsAll_of_drains drains_auth _) ?_))
  refine .ite (readsAll_of_drains (drains_decodeAck _ _) _) (.ite (readsAll_of_drains (drains_decodeAck _ _) _)
    (.ite (readsAll_of_drains (drains_decodeAck _ _) _) fun _ _ _ h => nomatch h))

def connectBody : Bytes := [0, 4, 77, 81, 84, 84, 5, 2, 0, 0, 0, 0, 0]

theorem exists_trailing {firstByte : UInt8} (h : firstByte ∈ unchecked) :
    ∃ body, (decodePacket firstByte body).toOption.map (fun r => unread r.1 r.2) = some [0] := by
  simp only [unchecked, mem_cons, not_mem_nil, or_false] at h
  rcases h with rfl | rfl | rfl
  · exact ⟨connectBody ++ [0], by decide +kernel⟩
  · exact ⟨[0], by decide +kernel⟩
  · exact ⟨[0], by decide +kernel⟩

end V5

theorem toOption_map_eq_some {ε α β : Type} {x : Except ε α} {f : α → β} {b : β}
    (h : x.toOption.map f = some b) : ∃ a, x = .ok a ∧ f a = b := by
  cases x with
  | error => exact nomatch h
  | ok a => exact ⟨a, rfl, Option.some.inj h⟩

/-- The packets whose decoders accept no byte that they have not read. -/
theorem consumed_iff (firstByte : UInt8) :
    (Dec.Drains (V3.decodePacket firstByte) ↔ firstByte ∉ V3.unchecked) ∧
      (V5.ReadsAll (V5.decodePacket firstByte) ↔ firstByte ∉ V5.unchecked) := by
  refine ⟨⟨fun hdrains hmem => ?_, V3.drains_decodePacket⟩,
    ⟨fun hreads hmem => ?_, V5.readsAll_decodePacket⟩⟩
  · obtain ⟨body, hbody⟩ := V3.exists_trailing hmem
    obtain ⟨⟨p, rest⟩, hok, hrest⟩ := toOption_map_eq_some hbody
    have hnil : rest = [] := hdrains body p rest hok
    exact List.cons_ne_nil _ _ (hrest.symm.trans hnil)
  · obtain ⟨body, hbody⟩ := V5.exists_trailing hmem
    obtain ⟨⟨p, rest⟩, hok, hrest⟩ := toOption_map_eq_some hbody
    have hnil : V5.unread p rest = [] := hreads body p rest hok
    exact List.cons_ne_nil _ _ (hrest.symm.trans hnil)

/-- A byte behind a PINGREQ, and one behind a CONNECT, for both versions. -/
theorem trailing_byte_accepted :
    V3.decodePacket PacketType.pingreq [0] = .ok (.pingRequest, [0]) ∧
      V5.decodePacket PacketType.pingreq [0] = .ok (.pingRequest, [0]) ∧
      (V3.decodePacket PacketType.connect (V3.connectBody ++ [0])).toOption.map Prod.snd = some [0] ∧
      (V5.decodePacket PacketType.connect (V5.connectBody ++ [0])).toOption.map Prod.snd = some [0] :=
  ⟨rfl, rfl, by decide +kernel, by decide +kernel⟩

end FerroMq.Codec
