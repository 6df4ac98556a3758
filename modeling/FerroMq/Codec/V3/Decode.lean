import FerroMq.Codec.V3.Packet

/-!
# Reading MQTT 3 packets
-/

namespace FerroMq.Codec.V3

open Lib

/-- The protocol name.  The level decides about the version, so both names may come with both
levels. -/
def decodeName : Dec DecodeError Unit := do
  let len ← getU16
  if len = 4 then
    let name ← Dec.splitTo 4
    Dec.ensure (name = utf8 "MQTT") .invalidProtocol
  else if len = 6 then
    let name ← Dec.splitTo 6
    Dec.ensure (name = utf8 "MQIsdp") .invalidProtocol
  else Dec.fail .invalidProtocol

def decodeConnectHead : Dec DecodeError (UInt8 × UInt8) := do
  decodeName
  let level ← Dec.getU8
  Dec.ensure (level = 4 ∨ level = 3) .unsupportedProtocolLevel
  let flags ← Dec.getU8
  -- `ConnectFlags::from_bits`: only the lowest bit is not a flag
  Dec.ensure (flags &&& 1 = 0) .connectReservedFlagSet
  Dec.ensure (hasFlag flags ConnectFlags.will = true ∨
    flags &&& ConnectFlags.willQos = 0 ∧ hasFlag flags ConnectFlags.willRetain = false)
    .invalidConnectFlags
  return (level, flags)

def LastWill.decode (flags : UInt8) : Dec DecodeError LastWill := do
  let topic ← Decode.decode
  let message ← Decode.decode
  let qos ← PrimEnum.tryFrom ((flags &&& ConnectFlags.willQos) >>> 3)
  return { qos, retain := hasFlag flags ConnectFlags.willRetain, topic, message }

def decodeConnectPacket : Dec DecodeError Connect := do
  let r ← Dec.remaining
  Dec.ensure (10 ≤ r) .invalidLength
  let (level, flags) ← decodeConnectHead
  let keepAlive ← decode
  let clientId : String ← decode
  Dec.ensure (clientId ≠ "" ∨ hasFlag flags ConnectFlags.cleanStart = true) .invalidClientId
  let lastWill ← decodeIf (hasFlag flags ConnectFlags.will) (LastWill.decode flags)
  let username ← decodeIf (hasFlag flags ConnectFlags.username) decode
  let password ← decodeIf (hasFlag flags ConnectFlags.password) decode
  return {
    protocol := ⟨level⟩
    cleanSession := hasFlag flags ConnectFlags.cleanStart
    keepAlive
    clientId
    lastWill
    username
    password
    cert := none }

def decodeConnectAckPacket : Dec DecodeError ConnectAck := do
  let r ← Dec.remaining
  Dec.ensure (2 ≤ r) .invalidLength
  let flags ← Dec.getU8
  -- `ConnectAckFlags::from_bits`: the lowest bit is the only flag
  Dec.ensure (flags &&& 0b11111110 = 0) .connAckReservedFlagSet
  let code ← Dec.getU8
  let returnCode ← PrimEnum.tryFrom code
  return { returnCode, sessionPresent := hasFlag flags 0b00000001 }

def decodePublishPacket (packetFlags : UInt8) : Dec DecodeError Publish := do
  let topic : String ← decode
  Dec.ensure (topic ≠ "") .invalidTopicName
  let qos ← PrimEnum.tryFrom ((packetFlags &&& 0b0110) >>> 1)
  let packetId ← Publish.decodePacketId qos
  let payload ← takeRest
  return {
    dup := packetFlags &&& 0b1000 = 0b1000
    qos
    retain := packetFlags &&& 0b0001 = 0b0001
    topic
    packetId
    payload
    properties := none }

def decodeAck (f : NonZeroU16 → Packet) : Dec DecodeError Packet := do
  let packetId ← decode
  let more ← Dec.hasRemaining
  Dec.ensure (more = false) .invalidLength
  return f packetId

def readFilter (topicFilters : List (String × QoS)) : Dec DecodeError (List (String × QoS)) := do
  let topic : String ← decode
  Dec.ensure (topic ≠ "") .invalidTopicFilter
  let r ← Dec.remaining
  Dec.ensure (1 ≤ r) .invalidLength
  let b ← Dec.getU8
  let qos ← PrimEnum.tryFrom (b &&& 0b00000011)
  return topicFilters ++ [(topic, qos)]

def decodeSubscribePacket : Dec DecodeError Packet := do
  let packetId ← decode
  let topicFilters ← Dec.whileRemaining readFilter []
  Dec.ensure (topicFilters ≠ []) .invalidTopicFilter
  return .subscribe packetId topicFilters

def SubscribeReturnCode.ofU8 (code : UInt8) : Dec DecodeError SubscribeReturnCode :=
  if code = 0x80 then pure .failure else do return .success (← PrimEnum.tryFrom code)

def decodeSubscribeAckPacket : Dec DecodeError Packet := do
  let packetId ← decode
  let codes ← takeRest
  let status ← codes.mapM SubscribeReturnCode.ofU8
  return .subscribeAck packetId status

def readUnsubscribeFilter (topicFilters : List String) : Dec DecodeError (List String) := do
  let topic : String ← decode
  Dec.ensure (topic ≠ "") .invalidTopicFilter
  return topicFilters ++ [topic]

def decodeUnsubscribePacket : Dec DecodeError Packet := do
  let packetId ← decode
  let topicFilters ← Dec.whileRemaining readUnsubscribeFilter []
  Dec.ensure (topicFilters ≠ []) .invalidTopicFilter
  return .unsubscribe packetId topicFilters

def decodePacket (firstByte : UInt8) : Dec DecodeError Packet :=
  if firstByte = PacketType.connect then do return .connect (← decodeConnectPacket)
  else if firstByte = PacketType.connack then do return .connectAck (← decodeConnectAckPacket)
  else if PacketType.publishStart ≤ firstByte ∧ firstByte ≤ PacketType.publishEnd then do
    return .publish (← decodePublishPacket (firstByte &&& 0b00001111))
  else if firstByte = PacketType.puback then decodeAck .publishAck
  else if firstByte = PacketType.pubrec then decodeAck .publishReceived
  else if firstByte = PacketType.pubrel then decodeAck .publishRelease
  else if firstByte = PacketType.pubcomp then decodeAck .publishComplete
  else if firstByte = PacketType.subscribe then decodeSubscribePacket
  else if firstByte = PacketType.suback then decodeSubscribeAckPacket
  else if firstByte = PacketType.unsubscribe then decodeUnsubscribePacket
  else if firstByte = PacketType.unsuback then decodeAck .unsubscribeAck
  else if firstByte = PacketType.pingreq then pure .pingRequest
  else if firstByte = PacketType.pingresp then pure .pingResponse
  else if firstByte = PacketType.disconnect then pure .disconnect
  else Dec.fail .unsupportedPacketType

end FerroMq.Codec.V3
