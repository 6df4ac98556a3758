import FerroMq.Codec.V5.Encode

/-!
# The MQTT 5 decoder

`decode` of every packet type and the dispatch on the first byte.  The local variables of a property loop are
collected in a record for each packet.
-/

namespace FerroMq.Codec.V5

open Lib

def readProperties {Acc : Type} (onProperty : UInt8 → Acc → Dec DecodeError Acc) (init : Acc)
    (propSrc : Bytes) : Dec DecodeError Acc :=
  Dec.within (Dec.whileRemaining (fun acc => do onProperty (← Dec.getU8) acc) init) propSrc

/-! ## Acknowledgement properties -/

namespace AckProps

structure Acc where
  reasonString : Option String := none
  userProps : UserProperties := []

def onProperty (id : UInt8) (acc : Acc) : Dec DecodeError Acc :=
  if id = PropertyType.reasonString then do
    return { acc with reasonString := ← readValue acc.reasonString }
  else if id = PropertyType.user then do
    return { acc with userProps := acc.userProps ++ [← decode] }
  else Dec.fail .malformedPacket

def decode : Dec DecodeError Acc := do
  let propSrc ← takeProperties
  readProperties onProperty {} propSrc

end AckProps

/-! ## CONNECT -/

namespace LastWill

structure Acc where
  willDelayIntervalSec : Option UInt32 := none
  correlationData : Option Bytes := none
  messageExpiryInterval : Option NonZeroU32 := none
  contentType : Option String := none
  userProperties : UserProperties := []
  isUtf8Payload : Option Bool := none
  responseTopic : Option String := none

def onProperty (id : UInt8) (acc : Acc) : Dec DecodeError Acc :=
  if id = PropertyType.willDelayInt then do
    return { acc with willDelayIntervalSec := ← readValue acc.willDelayIntervalSec }
  else if id = PropertyType.corrData then do
    return { acc with correlationData := ← readValue acc.correlationData }
  else if id = PropertyType.msgExpiryInt then do
    return { acc with messageExpiryInterval := ← readValue acc.messageExpiryInterval }
  else if id = PropertyType.contentType then do
    return { acc with contentType := ← readValue acc.contentType }
  else if id = PropertyType.utf8Payload then do
    return { acc with isUtf8Payload := ← readValue acc.isUtf8Payload }
  else if id = PropertyType.respTopic then do
    return { acc with responseTopic := ← readValue acc.responseTopic }
  else if id = PropertyType.user then do
    return { acc with userProperties := acc.userProperties ++ [← decode] }
  else Dec.fail .malformedPacket

def decode (flags : UInt8) : Dec DecodeError LastWill := do
  let propSrc ← takeProperties
  let acc ← readProperties onProperty {} propSrc
  let topic ← Decode.decode
  let message ← Decode.decode
  let qos ← PrimEnum.tryFrom ((flags &&& ConnectFlags.willQos) >>> 3)
  return {
    qos
    retain := hasFlag flags ConnectFlags.willRetain
    topic
    message
    willDelayIntervalSec := acc.willDelayIntervalSec
    correlationData := acc.correlationData
    messageExpiryInterval := acc.messageExpiryInterval
    contentType := acc.contentType
    userProperties := acc.userProperties
    isUtf8Payload := acc.isUtf8Payload
    responseTopic := acc.responseTopic }

end LastWill

namespace Connect

structure Acc where
  sessionExpiryIntervalSecs : Option UInt32 := none
  authMethod : Option String := none
  authData : Option Bytes := none
  requestProblemInfo : Option Bool := none
  requestResponseInfo : Option Bool := none
  receiveMax : Option NonZeroU16 := none
  topicAliasMax : Option UInt16 := none
  userProperties : UserProperties := []
  maxPacketSize : Option NonZeroU32 := none

def onProperty (id : UInt8) (acc : Acc) : Dec DecodeError Acc :=
  if id = PropertyType.sessExpiryInt then do
    return { acc with sessionExpiryIntervalSecs := ← readValue acc.sessionExpiryIntervalSecs }
  else if id = PropertyType.authMethod then do
    return { acc with authMethod := ← readValue acc.authMethod }
  else if id = PropertyType.authData then do
    return { acc with authData := ← readValue acc.authData }
  else if id = PropertyType.reqProbInfo then do
    return { acc with requestProblemInfo := ← readValue acc.requestProblemInfo }
  else if id = PropertyType.reqRespInfo then do
    return { acc with requestResponseInfo := ← readValue acc.requestResponseInfo }
  else if id = PropertyType.receiveMax then do
    return { acc with receiveMax := ← readValue acc.receiveMax }
  else if id = PropertyType.topicAliasMax then do
    return { acc with topicAliasMax := ← readValue acc.topicAliasMax }
  else if id = PropertyType.user then do
    return { acc with userProperties := acc.userProperties ++ [← decode] }
  else if id = PropertyType.maxPacketSize then do
    return { acc with maxPacketSize := ← readValue acc.maxPacketSize }
  else Dec.fail .malformedPacket

def decodeHead : Dec DecodeError (UInt8 × UInt16) := do
  let r ← Dec.remaining
  Dec.ensure (10 ≤ r) .invalidLength
  let len ← getU16
  let name ← Dec.splitTo 4
  Dec.ensure (len = 4 ∧ name = utf8 "MQTT") .invalidProtocol
  let level ← Dec.getU8
  Dec.ensure (level = 5) .unsupportedProtocolLevel
  let flags ← Dec.getU8
  -- `ConnectFlags::from_bits`: only the lowest bit is not a flag
  Dec.ensure (flags &&& 1 = 0) .connectReservedFlagSet
  let keepAlive ← getU16
  return (flags, keepAlive)

def decode : Dec DecodeError Connect := do
  let (flags, keepAlive) ← decodeHead
  let propSrc ← takeProperties
  let acc ← readProperties onProperty {} propSrc
  let clientId : String ← Decode.decode
  Dec.ensure (clientId ≠ "" ∨ hasFlag flags ConnectFlags.cleanStart = true) .invalidClientId
  let lastWill ← decodeIf (hasFlag flags ConnectFlags.will) (LastWill.decode flags)
  let username ← decodeIf (hasFlag flags ConnectFlags.username) Decode.decode
  let password ← decodeIf (hasFlag flags ConnectFlags.password) Decode.decode
  return {
    cleanStart := hasFlag flags ConnectFlags.cleanStart
    keepAlive
    sessionExpiryIntervalSecs := acc.sessionExpiryIntervalSecs.getD 0
    authMethod := acc.authMethod
    authData := acc.authData
    requestProblemInfo := acc.requestProblemInfo.getD true
    requestResponseInfo := acc.requestResponseInfo.getD false
    receiveMax := acc.receiveMax
    topicAliasMax := acc.topicAliasMax.getD 0
    userProperties := acc.userProperties
    maxPacketSize := acc.maxPacketSize
    lastWill
    clientId
    username
    password
    cert := none }

end Connect

/-! ## CONNACK -/

namespace ConnectAck

structure Acc where
  sessionExpiryIntervalSecs : Option UInt32 := none
  receiveMax : Option NonZeroU16 := none
  maxQos : Option QoS := none
  retainAvailable : Option Bool := none
  maxPacketSize : Option UInt32 := none
  assignedClientId : Option String := none
  topicAliasMax : Option UInt16 := none
  reasonString : Option String := none
  userProperties : UserProperties := []
  wildcardSubAvail : Option Bool := none
  subIdsAvail : Option Bool := none
  sharedSubAvail : Option Bool := none
  serverKaSec : Option UInt16 := none
  responseInfo : Option String := none
  serverReference : Option String := none
  authMethod : Option String := none
  authData : Option Bytes := none

def readMaxQos (self : Option QoS) : Dec DecodeError (Option QoS) := do
  Dec.ensure (self = none) .malformedPacket
  let more ← Dec.hasRemaining
  Dec.ensure (more = true) .invalidLength
  let b ← Dec.getU8
  let q ← PrimEnum.tryFrom b
  return some q

def onProperty (id : UInt8) (acc : Acc) : Dec DecodeError Acc :=
  if id = PropertyType.sessExpiryInt then do
    return { acc with sessionExpiryIntervalSecs := ← readValue acc.sessionExpiryIntervalSecs }
  else if id = PropertyType.receiveMax then do
    return { acc with receiveMax := ← readValue acc.receiveMax }
  else if id = PropertyType.maxQos then do
    return { acc with maxQos := ← readMaxQos acc.maxQos }
  else if id = PropertyType.retainAvail then do
    return { acc with retainAvailable := ← readValue acc.retainAvailable }
  else if id = PropertyType.maxPacketSize then do
    return { acc with maxPacketSize := ← readValue acc.maxPacketSize }
  else if id = PropertyType.assndClientId then do
    return { acc with assignedClientId := ← readValue acc.assignedClientId }
  else if id = PropertyType.topicAliasMax then do
    return { acc with topicAliasMax := ← readValue acc.topicAliasMax }
  else if id = PropertyType.reasonString then do
    return { acc with reasonString := ← readValue acc.reasonString }
  else if id = PropertyType.user then do
    return { acc with userProperties := acc.userProperties ++ [← decode] }
  else if id = PropertyType.wildcardSubAvail then do
    return { acc with wildcardSubAvail := ← readValue acc.wildcardSubAvail }
  else if id = PropertyType.subIdsAvail then do
    return { acc with subIdsAvail := ← readValue acc.subIdsAvail }
  else if id = PropertyType.sharedSubAvail then do
    return { acc with sharedSubAvail := ← readValue acc.sharedSubAvail }
  else if id = PropertyType.serverKa then do
    return { acc with serverKaSec := ← readValue acc.serverKaSec }
  else if id = PropertyType.respInfo then do
    return { acc with responseInfo := ← readValue acc.responseInfo }
  else if id = PropertyType.serverRef then do
    return { acc with serverReference := ← readValue acc.serverReference }
  else if id = PropertyType.authMethod then do
    return { acc with authMethod := ← readValue acc.authMethod }
  else if id = PropertyType.authData then do
    return { acc with authData := ← readValue acc.authData }
  else Dec.fail .malformedPacket

def decode : Dec DecodeError ConnectAck := do
  let r ← Dec.remaining
  Dec.ensure (2 ≤ r) .invalidLength
  let flags ← Dec.getU8
  -- `ConnectAckFlags::from_bits`: the lowest bit is the only flag
  Dec.ensure (flags &&& 0b11111110 = 0) .connAckReservedFlagSet
  let reasonByte ← Dec.getU8
  let reasonCode ← PrimEnum.tryFrom reasonByte
  let propSrc ← takeProperties
  let acc ← readProperties onProperty {} propSrc
  let more ← Dec.hasRemaining
  Dec.ensure (more = false) .invalidLength
  return {
    sessionPresent := hasFlag flags 0b00000001
    reasonCode
    sessionExpiryIntervalSecs := acc.sessionExpiryIntervalSecs
    receiveMax := acc.receiveMax.getD receiveMaxDefault
    maxQos := acc.maxQos.getD .exactlyOnce
    maxPacketSize := acc.maxPacketSize
    assignedClientId := acc.assignedClientId
    topicAliasMax := acc.topicAliasMax.getD 0
    retainAvailable := acc.retainAvailable.getD true
    wildcardSubscriptionAvailable := acc.wildcardSubAvail.getD true
    subscriptionIdentifiersAvailable := acc.subIdsAvail.getD true
    sharedSubscriptionAvailable := acc.sharedSubAvail.getD true
    serverKeepaliveSec := acc.serverKaSec
    responseInfo := acc.responseInfo
    serverReference := acc.serverReference
    authMethod := acc.authMethod
    authData := acc.authData
    reasonString := acc.reasonString
    userProperties := acc.userProperties }

end ConnectAck

/-! ## PUBLISH -/

def readSubId : Dec DecodeError NonZeroU32 := do
  let id ← decodeVariableLengthCursor
  NonZeroU32.ofU32 (UInt32.ofNat id)

namespace PublishProperties

structure Acc where
  messageExpiryInterval : Option NonZeroU32 := none
  topicAlias : Option NonZeroU16 := none
  contentType : Option String := none
  correlationData : Option Bytes := none
  subscriptionIds : List NonZeroU32 := []
  responseTopic : Option String := none
  isUtf8Payload : Option Bool := none
  userProps : UserProperties := []

def onProperty (id : UInt8) (acc : Acc) : Dec DecodeError Acc :=
  if id = PropertyType.utf8Payload then do
    return { acc with isUtf8Payload := ← readValue acc.isUtf8Payload }
  else if id = PropertyType.msgExpiryInt then do
    return { acc with messageExpiryInterval := ← readValue acc.messageExpiryInterval }
  else if id = PropertyType.contentType then do
    return { acc with contentType := ← readValue acc.contentType }
  else if id = PropertyType.respTopic then do
    return { acc with responseTopic := ← readValue acc.responseTopic }
  else if id = PropertyType.corrData then do
    return { acc with correlationData := ← readValue acc.correlationData }
  else if id = PropertyType.subId then do
    return { acc with subscriptionIds := acc.subscriptionIds ++ [← readSubId] }
  else if id = PropertyType.topicAlias then do
    return { acc with topicAlias := ← readValue acc.topicAlias }
  else if id = PropertyType.user then do
    return { acc with userProps := acc.userProps ++ [← decode] }
  else Dec.fail .malformedPacket

def parse : Dec DecodeError PublishProperties := do
  let propSrc ← takeProperties
  let acc ← readProperties onProperty {} propSrc
  return {
    messageExpiryInterval := acc.messageExpiryInterval
    topicAlias := acc.topicAlias
    contentType := acc.contentType
    correlationData := acc.correlationData
    subscriptionIds := acc.subscriptionIds
    responseTopic := acc.responseTopic
    isUtf8Payload := acc.isUtf8Payload.getD false
    userProperties := acc.userProps }

end PublishProperties

def Publish.decode (packetFlags : UInt8) : Dec DecodeError Publish := do
  let topic ← Decode.decode
  let qos ← PrimEnum.tryFrom ((packetFlags &&& 0b0110) >>> 1)
  let packetId ← Publish.decodePacketId qos
  let properties ← PublishProperties.parse
  let payload ← takeRest
  return {
    dup := packetFlags &&& 0b1000 = 0b1000
    qos
    retain := packetFlags &&& 0b0001 = 0b0001
    topic
    packetId
    payload
    properties := some properties }

/-! ## Acknowledgements of PUBLISH -/

section PublishAcks

variable {R A : Type} [PrimEnum R] (mk : NonZeroU16 → R → AckProps.Acc → A) (success : R)

def decodeAckTail (packetId : NonZeroU16) (reasonCode : R) : Dec DecodeError A := do
  let acc ← AckProps.decode
  let more ← Dec.hasRemaining
  Dec.ensure (more = false) .invalidLength
  return mk packetId reasonCode acc

def decodeAck : Dec DecodeError A := do
  let packetId ← Decode.decode
  if ← Dec.hasRemaining then
    let reasonByte ← Dec.getU8
    let reasonCode ← PrimEnum.tryFrom reasonByte
    if ← Dec.hasRemaining then decodeAckTail mk packetId reasonCode
    else return mk packetId reasonCode {}
  else return mk packetId success {}

end PublishAcks

def PublishAck.decode : Dec DecodeError PublishAck :=
  decodeAck (fun packetId reasonCode acc =>
    { packetId, reasonCode, properties := acc.userProps, reasonString := acc.reasonString }) .success

def PublishAck2.decode : Dec DecodeError PublishAck2 :=
  decodeAck (fun packetId reasonCode acc =>
    { packetId, reasonCode, properties := acc.userProps, reasonString := acc.reasonString }) .success

/-! ## SUBSCRIBE and UNSUBSCRIBE -/

def SubscriptionOptions.decode : Dec DecodeError SubscriptionOptions := do
  let more ← Dec.hasRemaining
  Dec.ensure (more = true) .invalidLength
  let val ← Dec.getU8
  let qos ← PrimEnum.tryFrom (val &&& 0b00000011)
  let retainHandling ← PrimEnum.tryFrom ((val &&& 0b00110000) >>> 4)
  return {
    qos
    noLocal := val &&& 0b00000100 ≠ 0
    retainAsPublished := val &&& 0b00001000 ≠ 0
    retainHandling }

namespace Subscribe

structure Acc where
  subId : Option NonZeroU32 := none
  userProperties : UserProperties := []

def onProperty (id : UInt8) (acc : Acc) : Dec DecodeError Acc :=
  if id = PropertyType.subId then do
    Dec.ensure (acc.subId = none) .malformedPacket
    return { acc with subId := some (← readSubId) }
  else if id = PropertyType.user then do
    return { acc with userProperties := acc.userProperties ++ [← decode] }
  else Dec.fail .malformedPacket

def readFilter (filters : List (String × SubscriptionOptions)) :
    Dec DecodeError (List (String × SubscriptionOptions)) := do
  let topic ← Decode.decode
  let opts ← SubscriptionOptions.decode
  return filters ++ [(topic, opts)]

def decode : Dec DecodeError Subscribe := do
  let packetId ← Decode.decode
  let propSrc ← takeProperties
  let acc ← readProperties onProperty {} propSrc
  let topicFilters ← Dec.whileRemaining readFilter []
  Dec.ensure (topicFilters ≠ []) .invalidTopicFilter
  return { packetId, id := acc.subId, userProperties := acc.userProperties, topicFilters }

end Subscribe

namespace Unsubscribe

def onProperty (id : UInt8) (userProperties : UserProperties) : Dec DecodeError UserProperties :=
  if id = PropertyType.user then do
    return userProperties ++ [← Decode.decode]
  else Dec.fail .malformedPacket

def readFilter (filters : List String) : Dec DecodeError (List String) := do
  return filters ++ [← Decode.decode]

def decode : Dec DecodeError Unsubscribe := do
  let packetId ← Decode.decode
  let propSrc ← takeProperties
  let userProperties ← readProperties onProperty [] propSrc
  let topicFilters ← Dec.whileRemaining readFilter []
  Dec.ensure (topicFilters ≠ []) .invalidTopicFilter
  return { packetId, userProperties, topicFilters }

end Unsubscribe

/-! ## SUBACK and UNSUBACK -/

/-- `for code in src { status.push(code.try_into()?) }`, which does not advance the source. -/
def decodeStatus {α : Type} [PrimEnum α] : Dec DecodeError (List α) := fun src =>
  (src.mapM fun code => PrimEnum.tryFrom code) src

def decodeStatusAck {R A : Type} [PrimEnum R] (mk : NonZeroU16 → AckProps.Acc → List R → A) :
    Dec DecodeError A := do
  let packetId ← Decode.decode
  let acc ← AckProps.decode
  let status ← decodeStatus
  return mk packetId acc status

def SubscribeAck.decode : Dec DecodeError SubscribeAck :=
  decodeStatusAck fun packetId acc status =>
    { packetId, properties := acc.userProps, reasonString := acc.reasonString, status }

def UnsubscribeAck.decode : Dec DecodeError UnsubscribeAck :=
  decodeStatusAck fun packetId acc status =>
    { packetId, properties := acc.userProps, reasonString := acc.reasonString, status }

/-! ## DISCONNECT and AUTH -/

namespace Disconnect

structure Acc where
  sessionExpSecs : Option UInt32 := none
  serverReference : Option String := none
  reasonString : Option String := none
  userProperties : UserProperties := []

def onProperty (id : UInt8) (acc : Acc) : Dec DecodeError Acc :=
  if id = PropertyType.sessExpiryInt then do
    return { acc with sessionExpSecs := ← readValue acc.sessionExpSecs }
  else if id = PropertyType.reasonString then do
    return { acc with reasonString := ← readValue acc.reasonString }
  else if id = PropertyType.user then do
    return { acc with userProperties := acc.userProperties ++ [← decode] }
  else if id = PropertyType.serverRef then do
    return { acc with serverReference := ← readValue acc.serverReference }
  else Dec.fail .malformedPacket

def decodeTail (reasonCode : DisconnectReasonCode) : Dec DecodeError Disconnect := do
  let propSrc ← takeProperties
  let acc ← readProperties onProperty {} propSrc
  let more ← Dec.hasRemaining
  Dec.ensure (more = false) .invalidLength
  return {
    reasonCode
    sessionExpiryIntervalSecs := acc.sessionExpSecs
    serverReference := acc.serverReference
    reasonString := acc.reasonString
    userProperties := acc.userProperties }

def decode : Dec DecodeError Disconnect := do
  if ← Dec.hasRemaining then
    let reasonByte ← Dec.getU8
    let reasonCode ← PrimEnum.tryFrom reasonByte
    if ← Dec.hasRemaining then decodeTail reasonCode
    else return { reasonCode }
  else return {}

end Disconnect

namespace Auth

structure Acc where
  authMethod : Option String := none
  authData : Option Bytes := none
  reasonString : Option String := none
  userProperties : UserProperties := []

def onProperty (id : UInt8) (acc : Acc) : Dec DecodeError Acc :=
  if id = PropertyType.authMethod then do
    return { acc with authMethod := ← readValue acc.authMethod }
  else if id = PropertyType.authData then do
    return { acc with authData := ← readValue acc.authData }
  else if id = PropertyType.reasonString then do
    return { acc with reasonString := ← readValue acc.reasonString }
  else if id = PropertyType.user then do
    return { acc with userProperties := acc.userProperties ++ [← decode] }
  else Dec.fail .malformedPacket

/-- The source asks once more whether bytes remain; it has just seen that they do. -/
def decodeTail (reasonCode : AuthReasonCode) : Dec DecodeError Auth := do
  let propSrc ← takeProperties
  let acc ← readProperties onProperty {} propSrc
  let more ← Dec.hasRemaining
  Dec.ensure (more = false) .invalidLength
  return {
    reasonCode
    authMethod := acc.authMethod
    authData := acc.authData
    reasonString := acc.reasonString
    userProperties := acc.userProperties }

def decode : Dec DecodeError Auth := do
  if ← Dec.hasRemaining then
    let reasonByte ← Dec.getU8
    let reasonCode ← PrimEnum.tryFrom reasonByte
    if ← Dec.hasRemaining then decodeTail reasonCode
    else return { reasonCode }
  else return {}

end Auth

/-! ## Packets -/

def decodePacket (firstByte : UInt8) : Dec DecodeError Packet :=
  if PacketType.publishStart ≤ firstByte ∧ firstByte ≤ PacketType.publishEnd then
    do return .publish (← Publish.decode (firstByte &&& 0b00001111))
  else if firstByte = PacketType.puback then do return .publishAck (← PublishAck.decode)
  else if firstByte = PacketType.pingreq then pure .pingRequest
  else if firstByte = PacketType.pingresp then pure .pingResponse
  else if firstByte = PacketType.subscribe then do return .subscribe (← Subscribe.decode)
  else if firstByte = PacketType.suback then do return .subscribeAck (← SubscribeAck.decode)
  else if firstByte = PacketType.unsubscribe then do return .unsubscribe (← Unsubscribe.decode)
  else if firstByte = PacketType.unsuback then do return .unsubscribeAck (← UnsubscribeAck.decode)
  else if firstByte = PacketType.connect then do return .connect (← Connect.decode)
  else if firstByte = PacketType.connack then do return .connectAck (← ConnectAck.decode)
  else if firstByte = PacketType.disconnect then do return .disconnect (← Disconnect.decode)
  else if firstByte = PacketType.auth then do return .auth (← Auth.decode)
  else if firstByte = PacketType.pubrec then do return .publishReceived (← PublishAck.decode)
  else if firstByte = PacketType.pubrel then do return .publishRelease (← PublishAck2.decode)
  else if firstByte = PacketType.pubcomp then do return .publishComplete (← PublishAck2.decode)
  else Dec.fail .unsupportedPacketType

end FerroMq.Codec.V5
