import FerroMq.Codec.Framing
import FerroMq.Codec.V5.Decode

/-!
# The MQTT 5 codec

The `Codec` with its limits and the flag that a CONNECT sets.  The flags for retained messages and subscription
identifiers have no effect on the codec and are left out.
-/

set_option linter.dupNamespace false

namespace FerroMq.Codec.V5

open Lib

structure Codec where
  state : DecodeState := .frameHeader
  maxInSize : UInt32 := 0
  maxOutSize : UInt32 := 0
  /-- `CodecFlags::NO_PROBLEM_INFO` -/
  noProblemInfo : Bool := false
  deriving DecidableEq

def Packet.clearProblemInfo : Packet → Packet
  | .publishAck pkt => .publishAck { pkt with properties := [], reasonString := none }
  | .publishReceived pkt => .publishReceived { pkt with properties := [], reasonString := none }
  | .publishRelease pkt => .publishRelease { pkt with properties := [], reasonString := none }
  | .publishComplete pkt => .publishComplete { pkt with properties := [], reasonString := none }
  | .subscribe pkt => .subscribe { pkt with userProperties := [] }
  | .subscribeAck pkt => .subscribeAck { pkt with properties := [], reasonString := none }
  | .unsubscribe pkt => .unsubscribe { pkt with userProperties := [] }
  | .unsubscribeAck pkt => .unsubscribeAck { pkt with properties := [], reasonString := none }
  | .auth pkt => .auth { pkt with userProperties := [], reasonString := none }
  | item => item

namespace Codec

def new (maxInSize maxOutSize : UInt32) : Codec := { maxInSize, maxOutSize }

def setMaxInboundSize (self : Codec) (size : UInt32) : Codec := { self with maxInSize := size }

/-- The fixed header and the longest remaining length are taken off. -/
def setMaxOutboundSize (self : Codec) (size : UInt32) : Codec :=
  { self with maxOutSize := if size > 5 then size - 5 else size }

def noteConnect (noProblemInfo : Bool) : Packet → Bool
  | .connect pkt => !pkt.requestProblemInfo
  | _ => noProblemInfo

def decode : Poll Codec (Packet × ℕ) (Fault DecodeError) := fun self src =>
  match Framing.decode decodePacket self.maxInSize.toNat self.state src with
  | (.ok (some (packet, size)), state, src) =>
    (.ok (some (packet, size)),
      { self with state, noProblemInfo := noteConnect self.noProblemInfo packet }, src)
  | (answer, state, src) => (answer, { self with state }, src)

def outgoing (self : Codec) (item : Packet) : Packet :=
  if self.noProblemInfo then item.clearProblemInfo else item

def maxSize (self : Codec) : ℕ :=
  if self.maxOutSize ≠ 0 then self.maxOutSize.toNat else maxPacketSize

def encode (mode : Overflow) (self : Codec) (item : Packet) : Enc EncodeError Unit := do
  let contentSize ← Enc.lift ((self.outgoing item).encodedSize mode self.maxSize)
  if contentSize > self.maxSize then
    Enc.fail (.overMaxPacketSize (contentSize % 2 ^ 32) self.maxSize)
  else (self.outgoing item).encode mode (contentSize % 2 ^ 32)

end Codec

end FerroMq.Codec.V5
