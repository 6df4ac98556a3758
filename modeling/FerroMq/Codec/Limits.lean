import FerroMq.Codec.V3.RoundTrip
import FerroMq.Codec.V5.RoundTrip

/-!
# Packets that cannot be sent

An error after the first byte leaves a part of the packet in the buffer (`encode_atomic_iff`).  The limit of a
client is kept if it is above five (`setMaxOutboundSize_respected_iff`).  Sizes under a small limit can
underflow, and a length that is too large is a panic (`encode_no_panic_iff`).
-/

set_option linter.dupNamespace false

namespace FerroMq.Codec

open Lib

/-! ## Errors behind the first byte -/

namespace V3

theorem Packet.firstByte_isPrefix (p : Packet) (buf : Bytes) :
    buf ++ [p.firstByte] <+: (p.encode p.contentSize buf).2 := by
  cases p
  case pingRequest | pingResponse | disconnect => exact ⟨[0], by rw [List.append_assoc]; rfl⟩
  all_goals
    exact Enc.Spec.putU8_isPrefix ((spec_writeVariableLength _).bind fun _ =>
      Packet.strict_encodeContent _) _ buf

theorem Codec.atomic_encode_iff (c : Codec) (p : Packet) :
    Enc.Atomic (c.encode p) ↔
      (lacksPacketId p = false → p.contentSize ≤ maxPacketSize → p.Fits) := by
  rcases hid : lacksPacketId p with _ | _
  · have hencode : c.encode p = p.encode p.contentSize := by
      rw [Codec.encode, hid]
      rfl
    rw [hencode, p.spec_encode.atomic_iff p.firstByte_isPrefix]
    exact ⟨fun h _ hn => (h hn).2, fun h hn => ⟨hn, h rfl hn⟩⟩
  · refine iff_of_true ?_ (by rintro ⟨⟩)
    intro buf err buf' h
    rw [Codec.encode, hid] at h
    exact (Prod.mk.inj h).2.symm

end V3

namespace V5

theorem Packet.firstByte_isPrefix {mode : Overflow} {limit n : ℕ} {p : Packet}
    (h : p.encodedSize mode limit = .ok n) (hn : n ≤ maxPacketSize) (buf : Bytes) :
    buf ++ [p.firstByte] <+: (p.encode mode n buf).2 := by
  have hcontent := (spec_encodeContent h hn).1
  cases p
  case pingRequest | pingResponse => exact ⟨[0], by rw [List.append_assoc]; rfl⟩
  all_goals
    exact Enc.Spec.putU8_isPrefix ((strict_writeVariableLength hn).andThen hcontent) _ buf

theorem Codec.atomic_encode_iff (c : Codec) (mode : Overflow) (p : Packet) :
    Enc.Atomic (c.encode mode p) ↔
      ∀ n, (c.outgoing p).encodedSize mode c.maxSize = .ok n → n ≤ c.maxSize → n ≤ maxPacketSize →
        ((c.outgoing p).trimmed c.maxSize).SubIdsOk → ((c.outgoing p).trimmed c.maxSize).Fits := by
  -- before the first byte nothing has been written
  have hearly (hbuf : ∀ buf, (c.encode mode p buf).2 = buf) : Enc.Atomic (c.encode mode p) := by
    intro buf err buf' h
    rw [← hbuf buf, h]
  rcases hsize : (c.outgoing p).encodedSize mode c.maxSize with f | n
  · refine iff_of_true (hearly fun buf => ?_) (by rintro n ⟨⟩)
    rw [Codec.encode, hsize]
    rfl
  by_cases hlimit : n ≤ c.maxSize
  · rw [encode_of_size hsize hlimit]
    by_cases hn : n ≤ maxPacketSize
    · have hspec := Packet.spec_encode hsize hn
      rw [hspec.atomic_iff (Packet.firstByte_isPrefix hsize hn)]
      constructor
      · rintro h m ⟨⟩ - -
        exact h
      · exact fun h => h n rfl hlimit hn
    · refine iff_of_true ?_ ?_
      · intro buf err buf' h
        have hping := Packet.isPing_eq_false hsize (by omega)
        obtain ⟨buf'', hpanic⟩ := Packet.encode_panics mode hping (not_le.1 hn) buf
        rw [hpanic] at h
        cases h
      · rintro m ⟨⟩ - hm
        exact absurd hm hn
  · refine iff_of_true (hearly fun buf => ?_) ?_
    · rw [encode_of_limit hsize (not_le.1 hlimit)]
      rfl
    · rintro m ⟨⟩ hm
      exact absurd hm hlimit

end V5

/-- An error leaves the buffer as it was if it is one of the checks that come first: a missing packet
id, or a packet that is larger than the limit.  A string that is too long or a packet id that should
not be there is noticed behind the header, if not a panic comes first. -/
theorem encode_atomic_iff (c₃ : V3.Codec) (p₃ : V3.Packet) (mode : Overflow) (c₅ : V5.Codec)
    (p₅ : V5.Packet) :
    (Enc.Atomic (c₃.encode p₃) ↔
      (V3.Codec.lacksPacketId p₃ = false → p₃.contentSize ≤ maxPacketSize → p₃.Fits)) ∧
    (Enc.Atomic (c₅.encode mode p₅) ↔
      ∀ n, (c₅.outgoing p₅).encodedSize mode c₅.maxSize = .ok n → n ≤ c₅.maxSize →
        n ≤ maxPacketSize → ((c₅.outgoing p₅).trimmed c₅.maxSize).SubIdsOk →
        ((c₅.outgoing p₅).trimmed c₅.maxSize).Fits) :=
  ⟨c₃.atomic_encode_iff p₃, c₅.atomic_encode_iff mode p₅⟩

def idPublish : Publish where
  dup := false
  retain := false
  qos := .atMostOnce
  topic := "t"
  packetId := some V5.packetIdOne
  payload := [7]
  properties := none

/-- The header and the topic are left in the buffer. -/
theorem encode_leaves_header :
    (V3.Codec.new 0).encode (.publish idPublish) [1, 2] =
      (.error (.err .malformedPacket), [1, 2, 48, 4, 0, 1, 116]) ∧
    (V5.Codec.new 0 0).encode .checked (.publish idPublish) [1, 2] =
      (.error (.err .malformedPacket), [1, 2, 48, 5, 0, 1, 116]) := by
  decide +kernel

/-! ## The limit of a client -/

theorem V5.Packet.length_frame (p : Packet) :
    p.frame.length = 1 + (varLen p.wire.length).length + p.wire.length := by
  rw [frame, Framing.frame, List.length_cons, List.length_append]
  omega

namespace V5.Codec

theorem outgoing_setMaxOutboundSize (c : Codec) (size : UInt32) (p : Packet) :
    (c.setMaxOutboundSize size).outgoing p = c.outgoing p := rfl

theorem maxSize_setMaxOutboundSize (c : Codec) {size : UInt32} (h : size ≠ 0) :
    (c.setMaxOutboundSize size).maxSize =
      if 5 < size.toNat then size.toNat - 5 else size.toNat := by
  have hpos : size.toNat ≠ 0 := fun h' => h (UInt32.toNat_inj.1 h')
  have hlt : size > 5 ↔ 5 < size.toNat := UInt32.lt_iff_toNat_lt
  unfold maxSize setMaxOutboundSize
  by_cases h5 : size > 5
  · have hsub : (size - 5).toNat = size.toNat - 5 :=
      UInt32.toNat_sub_of_le _ _ (UInt32.le_iff_toNat_le.2 (hlt.1 h5).le)
    have hne : size - 5 ≠ 0 := by
      rw [Ne, ← UInt32.toNat_inj, hsub]
      exact Nat.sub_ne_zero_of_lt (hlt.1 h5)
    rw [if_pos (hlt.1 h5)]
    simp only [if_pos h5, if_pos hne, hsub]
  · rw [if_neg (fun h' => h5 (hlt.2 h'))]
    simp only [if_neg h5, if_pos h]

end V5.Codec

/-! ## Underflow and overlong lengths -/

namespace V5

theorem subU32_checked_of_lt {a b : ℕ} (h : a < b) :
    (subU32 .checked a b : Except (Fault EncodeError) ℕ) = .error .panic := if_neg (not_le.2 h)

theorem publishAckSize_of_lt {ups : UserProperties} {reason : Option String} {limit : ℕ}
    (h : limit < 7) : publishAckSize .checked ups reason limit = .error .panic := by
  unfold publishAckSize
  by_cases h3 : 3 ≤ limit
  · rw [subU32_of_le h3]
    change (subU32 .checked (limit - 3) 4 >>= _) = _
    rw [subU32_checked_of_lt (by omega)]
    rfl
  · rw [subU32_checked_of_lt (not_le.1 h3)]
    rfl

theorem SubscribeAck.encodedSize_of_lt {a : SubscribeAck} {limit : ℕ}
    (h : limit < 2 + a.status.length) (hlen : a.status.length ≤ 2 ^ 32 - 1 - 2) :
    a.encodedSize .checked limit = .error .panic := by
  rw [SubscribeAck.encodedSize, if_neg (not_lt.2 hlen)]
  by_cases h2 : 2 ≤ limit
  · rw [subU32_of_le h2]
    change (subU32 .checked (limit - 2) a.status.length >>= _) = _
    rw [subU32_checked_of_lt (by omega)]
    rfl
  · rw [subU32_checked_of_lt (not_le.1 h2)]
    rfl

namespace Packet

/-- The subtractions that compute the size do not underflow.  A SUBACK with too many reason codes is
given a size above every limit without any. -/
def SizeDefined (limit : ℕ) : Packet → Prop
  | .publishAck _ | .publishReceived _ | .publishRelease _ | .publishComplete _ => 7 ≤ limit
  | .subscribeAck a => 2 + a.status.length ≤ limit ∨ 2 ^ 32 - 1 - 2 < a.status.length
  | _ => True

theorem encodedSize_of_defined {p : Packet} {limit : ℕ} (hlimit : limit < 2 ^ 32)
    (h : p.SizeDefined limit) : ∃ n, p.encodedSize .checked limit = .ok n := by
  cases p
  case publishAck | publishReceived | publishRelease | publishComplete =>
    exact publishAckSize_ok_iff.2 (Or.inr h)
  case subscribeAck a =>
    rcases h with h | h
    · exact SubscribeAck.encodedSize_ok .checked hlimit h
    · exact ⟨_, if_pos h⟩
  all_goals exact ⟨_, rfl⟩

theorem encodedSize_of_not_defined {p : Packet} {limit : ℕ} (h : ¬ p.SizeDefined limit) :
    p.encodedSize .checked limit = .error .panic := by
  cases p
  case publishAck | publishReceived | publishRelease | publishComplete =>
    exact publishAckSize_of_lt (not_le.1 h)
  case subscribeAck a =>
    obtain ⟨hlimit, hlen⟩ := not_or.1 h
    exact SubscribeAck.encodedSize_of_lt (not_le.1 hlimit) (not_lt.1 hlen)
  all_goals exact absurd trivial h

end Packet

namespace Codec

/-- In a build that checks its arithmetic, a packet is encoded without a panic if the size can be
computed under the limit, the content is not longer than a header can say, and no subscription
identifier that is too large is reached. -/
theorem encode_no_panic_iff (c : Codec) (size : UInt32) (p : Packet) :
    (∀ buf, ((c.setMaxOutboundSize size).encode .checked p buf).1 ≠ .error .panic) ↔
      (c.outgoing p).SizeDefined (c.setMaxOutboundSize size).maxSize ∧
      ∀ n, (c.outgoing p).encodedSize .checked (c.setMaxOutboundSize size).maxSize = .ok n →
        n ≤ (c.setMaxOutboundSize size).maxSize →
        n ≤ maxPacketSize ∧
          (((c.outgoing p).trimmed (c.setMaxOutboundSize size).maxSize).Fits ∨
            ((c.outgoing p).trimmed (c.setMaxOutboundSize size).maxSize).SubIdsOk) := by
  rw [← c.outgoing_setMaxOutboundSize size p]
  generalize c.setMaxOutboundSize size = c
  by_cases hdef : (c.outgoing p).SizeDefined c.maxSize
  · obtain ⟨n, hsize⟩ := Packet.encodedSize_of_defined c.maxSize_lt hdef
    rw [hsize]
    simp only [hdef, true_and, Except.ok.injEq, forall_eq']
    by_cases hlimit : n ≤ c.maxSize
    · simp only [hlimit, true_imp_iff, encode_of_size hsize hlimit]
      by_cases hn : n ≤ maxPacketSize
      · simp only [hn, true_and, ne_eq, (Packet.spec_encode hsize hn).panic_iff]
        rw [forall_const, ← not_or, not_not]
      · refine iff_of_false (fun h => ?_) fun h => hn h.1
        have hping := Packet.isPing_eq_false hsize (by omega)
        obtain ⟨buf', hpanic⟩ := Packet.encode_panics .checked hping (not_le.1 hn) []
        exact h [] (by rw [hpanic])
    · refine iff_of_true (fun buf h => ?_) fun h => absurd h hlimit
      rw [encode_of_limit hsize (not_le.1 hlimit)] at h
      cases h
  · refine iff_of_false (fun h => h [] ?_) fun h => hdef h.1
    rw [encode, Packet.encodedSize_of_not_defined hdef]
    rfl

/-- An acknowledgement cannot be sent to a client that accepts packets of eleven bytes. -/
theorem encode_panics_puback :
    ((new 0 0).setMaxOutboundSize 11).encode .checked (.publishAck {}) [] = (.error .panic, []) ∧
    ((new 0 0).setMaxOutboundSize 11).encode .checked
      (.subscribeAck ⟨⟨1, by decide⟩, [], none, List.replicate 5 .grantedQos0⟩) [] =
        (.error .panic, []) := by
  decide +kernel

end Codec

end V5

end FerroMq.Codec
