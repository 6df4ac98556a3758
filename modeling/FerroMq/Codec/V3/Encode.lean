import FerroMq.Codec.V3.Packet

/-!
# Writing MQTT 3 packets

The size functions and the writers of `encode.rs`.  The remaining length comes from `getEncodedSize`, not from
what is written.
-/

namespace FerroMq.Codec.V3

open Lib

/-! ## Sizes -/

def getEncodedPublishSize (p : Publish) : ℕ :=
  if p.qos = .atLeastOnce ∨ p.qos = .exactlyOnce then
    4 + (utf8 p.topic).length + p.payload.length
  else 2 + (utf8 p.topic).length + p.payload.length

def getEncodedSubscribeSize (topicFilters : List (String × QoS)) : ℕ :=
  2 + topicFilters.foldl (fun acc f => acc + 2 + (utf8 f.1).length + 1) 0

def getEncodedUnsubscribeSize (topicFilters : List String) : ℕ :=
  2 + topicFilters.foldl (fun acc f => acc + 2 + (utf8 f).length) 0

def Connect.getEncodedSize (connect : Connect) : ℕ :=
  1 + 1 + 2
    + (2 + (utf8 connect.protocol.name).length)
    + (2 + (utf8 connect.clientId).length)
    + (connect.lastWill.map fun will =>
        2 + (utf8 will.topic).length + 2 + will.message.length).getD 0
    + (connect.username.map fun s => 2 + (utf8 s).length).getD 0
    + (connect.password.map fun s => 2 + s.length).getD 0

def Packet.getEncodedSize : Packet → ℕ
  | .connect pkt => pkt.getEncodedSize
  | .publish pkt => getEncodedPublishSize pkt
  | .connectAck _ | .publishAck _ | .publishReceived _ | .publishRelease _ | .publishComplete _
  | .unsubscribeAck _ => 2
  | .subscribe _ topicFilters => getEncodedSubscribeSize topicFilters
  | .subscribeAck _ status => 2 + status.length
  | .unsubscribe _ topicFilters => getEncodedUnsubscribeSize topicFilters
  | .pingRequest | .pingResponse | .disconnect => 0

/-! ## Writers -/

def Connect.flags (connect : Connect) : UInt8 :=
  connectFlags connect.username.isSome connect.password.isSome
    (connect.lastWill.map fun will => (will.retain, will.qos)) connect.cleanSession

def encodeLastWill : Option LastWill → Enc EncodeError Unit
  | some will => do
    encode will.topic
    encode will.message
  | none => pure ()

/-- The protocol name follows the version of the packet, the level is always that of 3.1.1. -/
def encodeConnect (connect : Connect) : Enc EncodeError Unit := do
  encodeSlice (utf8 connect.protocol.name)
  Enc.putSlice [4, connect.flags]
  Enc.putSlice (be16 connect.keepAlive)
  encode connect.clientId
  encodeLastWill connect.lastWill
  encodeOption connect.username
  encodeOption connect.password

def SubscribeReturnCode.toU8 : SubscribeReturnCode → UInt8
  | .success qos => Codec.toU8 qos
  | .failure => 0x80

namespace Packet

def firstByte : Packet → UInt8
  | .connect _ => PacketType.connect
  | .connectAck _ => PacketType.connack
  | .publish pkt =>
    PacketType.publishStart ||| (toU8 pkt.qos <<< 1) ||| (pkt.dup.toUInt8 <<< 3)
      ||| pkt.retain.toUInt8
  | .publishAck _ => PacketType.puback
  | .publishReceived _ => PacketType.pubrec
  | .publishRelease _ => PacketType.pubrel
  | .publishComplete _ => PacketType.pubcomp
  | .subscribe .. => PacketType.subscribe
  | .subscribeAck .. => PacketType.suback
  | .unsubscribe .. => PacketType.unsubscribe
  | .unsubscribeAck _ => PacketType.unsuback
  | .pingRequest => PacketType.pingreq
  | .pingResponse => PacketType.pingresp
  | .disconnect => PacketType.disconnect

def encodeContent : Packet → Enc EncodeError Unit
  | .connect pkt => encodeConnect pkt
  | .connectAck ack => Enc.putSlice [ack.sessionPresent.toUInt8, toU8 ack.returnCode]
  | .publish pkt => do
    Codec.encode pkt.topic
    pkt.encodePacketId
    Enc.putSlice pkt.payload
  | .publishAck packetId | .publishReceived packetId | .publishRelease packetId
  | .publishComplete packetId | .unsubscribeAck packetId => Codec.encode packetId
  | .subscribe packetId topicFilters => do
    Codec.encode packetId
    topicFilters.forM fun f => do
      Codec.encode f.1
      Enc.putU8 (toU8 f.2)
  | .subscribeAck packetId status => do
    Codec.encode packetId
    Enc.putSlice (status.map SubscribeReturnCode.toU8)
  | .unsubscribe packetId topicFilters => do
    Codec.encode packetId
    topicFilters.forM fun f => Codec.encode f
  | .pingRequest | .pingResponse | .disconnect => pure ()

def encode (packet : Packet) (contentSize : ℕ) : Enc EncodeError Unit :=
  match packet with
  | .pingRequest => Enc.putSlice [PacketType.pingreq, 0]
  | .pingResponse => Enc.putSlice [PacketType.pingresp, 0]
  | .disconnect => Enc.putSlice [PacketType.disconnect, 0]
  | packet => do
    Enc.putU8 packet.firstByte
    writeVariableLength contentSize
    packet.encodeContent

end Packet

end FerroMq.Codec.V3
