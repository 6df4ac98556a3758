import FerroMq.Codec.Framing
import FerroMq.Codec.V3.Encode
import FerroMq.Codec.V3.Decode

/-!
# The MQTT 3 codec

The `Codec` with its limit, and the `Encoder` and `Decoder` implementations.  The limit is one for
packets that are received; there is none for packets that are sent.
-/

set_option linter.dupNamespace false

namespace FerroMq.Codec.V3

open Lib

structure Codec where
  state : DecodeState := .frameHeader
  maxSize : UInt32 := 0
  deriving DecidableEq

namespace Codec

def new (maxPacketSize : UInt32) : Codec := { maxSize := maxPacketSize }

def setMaxSize (self : Codec) (size : UInt32) : Codec := { self with maxSize := size }

def decode : Poll Codec (Packet × ℕ) (Fault DecodeError) := fun self src =>
  match Framing.decode decodePacket self.maxSize.toNat self.state src with
  | (answer, state, src) => (answer, { self with state }, src)

def lacksPacketId : Packet → Bool
  | .publish pkt => (pkt.qos = .atLeastOnce ∨ pkt.qos = .exactlyOnce) ∧ pkt.packetId = none
  | _ => false

def encode (_self : Codec) (item : Packet) : Enc EncodeError Unit :=
  if lacksPacketId item then Enc.fail .packetIdRequired
  else item.encode (item.getEncodedSize % 2 ^ 32)

end Codec

end FerroMq.Codec.V3
