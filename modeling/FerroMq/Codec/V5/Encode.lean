import FerroMq.Codec.V5.Packet

/-!
# The MQTT 5 encoder

`EncodeLtd` for every packet type: `encodedSize` computes the size under the outbound limit, leaving out user
properties and the reason string of an acknowledgement when they do not fit, and `encode` writes the content for
this size.
-/

namespace FerroMq.Codec

open Lib

namespace UserProperties

def encodedSize (props : UserProperties) : ℕ := (props.map fun p => 1 + Encode.encodedSize p).sum

def encode (props : UserProperties) : Enc EncodeError Unit :=
  props.forM fun p => do
    Enc.putU8 V5.PropertyType.user
    Encode.encode p

end UserProperties

namespace V5

/-! ## Properties -/

section Properties

variable {α : Type} [Encode α]

def encodedPropertySize (v : Option α) : ℕ := (v.map fun v => 1 + encodedSize v).getD 0

def encodedPropertySizeDefault [DecidableEq α] (v default : α) : ℕ :=
  if v = default then 0 else 1 + encodedSize v

def encodeProperty (v : Option α) (propType : UInt8) : Enc EncodeError Unit :=
  match v with
  | some v => do
    Enc.putU8 propType
    encode v
  | none => pure ()

def encodePropertyDefault [DecidableEq α] (v default : α) (propType : UInt8) :
    Enc EncodeError Unit :=
  if v ≠ default then do
    Enc.putU8 propType
    encode v
  else pure ()

end Properties

def encodedSizeOptProps : UserProperties → Option String → ℕ → ℕ
  | [], none, _ => 0
  | [], some reason, limit =>
    let reasonLen := 1 + encodedSize reason
    if reasonLen ≤ limit then reasonLen else 0
  | up :: ups, reasonStr, limit =>
    let propLen := 1 + encodedSize up
    if propLen > limit then 0
    else propLen + encodedSizeOptProps ups reasonStr (limit - propLen)

def encodeOptProps : UserProperties → Option String → ℕ → Enc EncodeError Unit
  | [], none, _ => pure ()
  | [], some reason, size =>
    if (utf8 reason).length < size then do
      Enc.putU8 PropertyType.reasonString
      encode reason
    else pure ()
  | up :: ups, reasonStr, size =>
    let propLen := 1 + encodedSize up.1 + encodedSize up.2
    if propLen > size then pure ()
    else do
      Enc.putU8 PropertyType.user
      encode up
      encodeOptProps ups reasonStr (size - propLen)

def reduceLimit (limit reduction : ℕ) : ℕ := if reduction > limit then 0 else limit - reduction

namespace AckProps

def encodedSize (properties : UserProperties) (reasonString : Option String) (limit : ℕ) : ℕ :=
  if limit < 4 then 1
  else
    let len := encodedSizeOptProps properties reasonString (limit - 4)
    varIntLen len + len

def encode (mode : Overflow) (properties : UserProperties) (reasonString : Option String)
    (size : ℕ) : Enc EncodeError Unit :=
  if size = 1 then Enc.putU8 0
  else do
    let size ← Enc.lift (varIntLenFromSize mode size)
    writeVariableLength size
    encodeOptProps properties reasonString size

end AckProps

/-! ## CONNECT -/

def LastWill.propertiesLen (self : LastWill) : ℕ :=
  encodedPropertySize self.willDelayIntervalSec
    + encodedPropertySize self.correlationData
    + encodedPropertySize self.messageExpiryInterval
    + encodedPropertySize self.contentType
    + encodedPropertySize self.isUtf8Payload
    + encodedPropertySize self.responseTopic
    + UserProperties.encodedSize self.userProperties

namespace Connect

def propertiesLen (self : Connect) : ℕ :=
  encodedPropertySize self.authMethod
    + encodedPropertySize self.authData
    + encodedPropertySizeDefault self.sessionExpiryIntervalSecs 0
    + encodedPropertySizeDefault self.requestProblemInfo true
    + encodedPropertySizeDefault self.requestResponseInfo false
    + encodedPropertySize self.receiveMax
    + encodedPropertySize self.maxPacketSize
    + encodedPropertySizeDefault self.topicAliasMax 0
    + UserProperties.encodedSize self.userProperties

def encodedSize (self : Connect) : ℕ :=
  let propLen := self.propertiesLen
  6 + 1 + 1 + 2
    + varIntLen propLen
    + propLen
    + Encode.encodedSize self.clientId
    + (self.lastWill.map fun will =>
        let propLen := will.propertiesLen
        varIntLen propLen + propLen + Encode.encodedSize will.topic
          + Encode.encodedSize will.message).getD 0
    + (self.username.map Encode.encodedSize).getD 0
    + (self.password.map Encode.encodedSize).getD 0

def flags (self : Connect) : UInt8 :=
  connectFlags self.username.isSome self.password.isSome
    (self.lastWill.map fun will => (will.retain, will.qos)) self.cleanStart

end Connect

def LastWill.encode (will : LastWill) : Enc EncodeError Unit := do
  writeVariableLength (will.propertiesLen % 2 ^ 32)
  encodeProperty will.willDelayIntervalSec PropertyType.willDelayInt
  encodeProperty will.isUtf8Payload PropertyType.utf8Payload
  encodeProperty will.messageExpiryInterval PropertyType.msgExpiryInt
  encodeProperty will.contentType PropertyType.contentType
  encodeProperty will.responseTopic PropertyType.respTopic
  encodeProperty will.correlationData PropertyType.corrData
  UserProperties.encode will.userProperties
  Encode.encode will.topic
  Encode.encode will.message

def encodeWill : Option LastWill → Enc EncodeError Unit
  | some will => will.encode
  | none => pure ()

def Connect.encode (self : Connect) : Enc EncodeError Unit := do
  encodeSlice (utf8 "MQTT")
  Enc.putSlice [5, self.flags]
  Encode.encode self.keepAlive
  writeVariableLength (self.propertiesLen % 2 ^ 32)
  encodePropertyDefault self.sessionExpiryIntervalSecs 0 PropertyType.sessExpiryInt
  encodeProperty self.authMethod PropertyType.authMethod
  encodeProperty self.authData PropertyType.authData
  encodePropertyDefault self.requestProblemInfo true PropertyType.reqProbInfo
  encodePropertyDefault self.requestResponseInfo false PropertyType.reqRespInfo
  encodeProperty self.receiveMax PropertyType.receiveMax
  encodeProperty self.maxPacketSize PropertyType.maxPacketSize
  encodePropertyDefault self.topicAliasMax 0 PropertyType.topicAliasMax
  UserProperties.encode self.userProperties
  Encode.encode self.clientId
  encodeWill self.lastWill
  encodeOption self.username
  encodeOption self.password

/-! ## CONNACK -/

namespace ConnectAck

def fixedPropertiesLen (self : ConnectAck) : ℕ :=
  encodedPropertySize self.sessionExpiryIntervalSecs
    + encodedPropertySizeDefault self.receiveMax receiveMaxDefault
    + (if self.maxQos < .exactlyOnce then 1 + 1 else 0)
    + encodedPropertySize self.maxPacketSize
    + encodedPropertySize self.assignedClientId
    + encodedPropertySizeDefault self.retainAvailable true
    + encodedPropertySizeDefault self.wildcardSubscriptionAvailable true
    + encodedPropertySizeDefault self.subscriptionIdentifiersAvailable true
    + encodedPropertySizeDefault self.sharedSubscriptionAvailable true
    + encodedPropertySize self.serverKeepaliveSec
    + encodedPropertySize self.responseInfo
    + encodedPropertySize self.serverReference
    + encodedPropertySize self.authMethod
    + encodedPropertySize self.authData
    + (if self.topicAliasMax > 0 then 1 + Encode.encodedSize self.topicAliasMax else 0)

def encodedSize (self : ConnectAck) (limit : ℕ) : ℕ :=
  let headerLen := 2
  let propLen := self.fixedPropertiesLen
  let diagLen := encodedSizeOptProps self.userProperties self.reasonString
    (reduceLimit limit (headerLen + 4 + propLen))
  let propLen := propLen + diagLen
  headerLen + varIntLen propLen + propLen

def encodeMaxQos (self : ConnectAck) : Enc EncodeError Unit :=
  if self.maxQos < .exactlyOnce then Enc.putSlice [PropertyType.maxQos, toU8 self.maxQos]
  else pure ()

def encodeFixed (mode : Overflow) (self : ConnectAck) (size : ℕ) : Enc EncodeError Unit := do
  Enc.putSlice [self.sessionPresent.toUInt8, toU8 self.reasonCode]
  let rest ← Enc.lift (subU32 mode size 2)
  let propLen ← Enc.lift (varIntLenFromSize mode rest)
  writeVariableLength propLen
  encodeProperty self.sessionExpiryIntervalSecs PropertyType.sessExpiryInt
  encodePropertyDefault self.receiveMax receiveMaxDefault PropertyType.receiveMax
  self.encodeMaxQos
  encodePropertyDefault self.retainAvailable true PropertyType.retainAvail
  encodeProperty self.maxPacketSize PropertyType.maxPacketSize
  encodeProperty self.assignedClientId PropertyType.assndClientId
  encodePropertyDefault self.topicAliasMax 0 PropertyType.topicAliasMax
  encodePropertyDefault self.wildcardSubscriptionAvailable true PropertyType.wildcardSubAvail
  encodePropertyDefault self.subscriptionIdentifiersAvailable true PropertyType.subIdsAvail
  encodePropertyDefault self.sharedSubscriptionAvailable true PropertyType.sharedSubAvail
  encodeProperty self.serverKeepaliveSec PropertyType.serverKa
  encodeProperty self.responseInfo PropertyType.respInfo
  encodeProperty self.serverReference PropertyType.serverRef
  encodeProperty self.authMethod PropertyType.authMethod
  encodeProperty self.authData PropertyType.authData

def encode (mode : Overflow) (self : ConnectAck) (size : ℕ) : Enc EncodeError Unit := do
  let startLen ← Enc.len
  self.encodeFixed mode size
  let now ← Enc.len
  let diagLen ← Enc.lift (subU32 mode size ((now - startLen) % 2 ^ 32))
  encodeOptProps self.userProperties self.reasonString diagLen

end ConnectAck

/-! ## PUBLISH -/

namespace PublishProperties

def propertiesLen (self : PublishProperties) : ℕ :=
  encodedPropertySize self.topicAlias
    + encodedPropertySize self.correlationData
    + encodedPropertySize self.messageExpiryInterval
    + encodedPropertySize self.contentType
    + encodedPropertySizeDefault self.isUtf8Payload false
    + encodedPropertySize self.responseTopic
    + (self.subscriptionIds.map fun id => 1 + varIntLen id.1.toNat).sum
    + UserProperties.encodedSize self.userProperties

def encodedSize (self : PublishProperties) : ℕ :=
  let propLen := propertiesLen self
  propLen + varIntLen propLen

def encode (mode : Overflow) (self : PublishProperties) (size : ℕ) : Enc EncodeError Unit := do
  let propLen ← Enc.lift (varIntLenFromSize mode size)
  writeVariableLength propLen
  encodeProperty self.topicAlias PropertyType.topicAlias
  encodeProperty self.correlationData PropertyType.corrData
  encodeProperty self.messageExpiryInterval PropertyType.msgExpiryInt
  encodeProperty self.contentType PropertyType.contentType
  encodePropertyDefault self.isUtf8Payload false PropertyType.utf8Payload
  encodeProperty self.responseTopic PropertyType.respTopic
  self.subscriptionIds.forM fun id => do
    Enc.putU8 PropertyType.subId
    writeVariableLength id.1.toNat
  UserProperties.encode self.userProperties

end PublishProperties

namespace Publish

def encodedSize (self : Publish) : ℕ :=
  let packetIdSize := if self.qos = .atMostOnce then 0 else 2
  Encode.encodedSize self.topic
    + packetIdSize
    + (match self.properties with
      | some p => PublishProperties.encodedSize p
      | none => PublishProperties.encodedSize {})
    + self.payload.length

def encodeHead (self : Publish) : Enc EncodeError Unit := do
  Encode.encode self.topic
  Publish.encodePacketId self

def encode (mode : Overflow) (self : Publish) (size : ℕ) : Enc EncodeError Unit := do
  let startLen ← Enc.len
  encodeHead self
  let now ← Enc.len
  let propSize ← Enc.lift (subU32 mode size ((now - startLen + self.payload.length) % 2 ^ 32))
  match self.properties with
  | some prop => do
    PublishProperties.encode mode prop propSize
    Enc.putSlice self.payload
  | none => do
    PublishProperties.encode mode {} propSize
    Enc.putSlice self.payload

end Publish

/-! ## Acknowledgements of PUBLISH -/

/-- The limit is reduced by the header and the longest length field, without a check. -/
def publishAckSize (mode : Overflow) (properties : UserProperties) (reasonString : Option String)
    (limit : ℕ) : Except (Fault EncodeError) ℕ := do
  let limit ← subU32 mode limit 3
  let limit ← subU32 mode limit 4
  pure (3 + AckProps.encodedSize properties reasonString limit)

def encodePublishAck (mode : Overflow) (packetId : NonZeroU16) (reasonCode : UInt8)
    (properties : UserProperties) (reasonString : Option String) (size : ℕ) :
    Enc EncodeError Unit := do
  Encode.encode packetId
  Enc.putU8 reasonCode
  let propSize ← Enc.lift (subU32 mode size 3)
  AckProps.encode mode properties reasonString propSize

namespace PublishAck

def encodedSize (mode : Overflow) (self : PublishAck) (limit : ℕ) : Except (Fault EncodeError) ℕ :=
  publishAckSize mode self.properties self.reasonString limit

def encode (mode : Overflow) (self : PublishAck) (size : ℕ) : Enc EncodeError Unit :=
  encodePublishAck mode self.packetId (toU8 self.reasonCode) self.properties self.reasonString size

end PublishAck

namespace PublishAck2

def encodedSize (mode : Overflow) (self : PublishAck2) (limit : ℕ) : Except (Fault EncodeError) ℕ :=
  publishAckSize mode self.properties self.reasonString limit

def encode (mode : Overflow) (self : PublishAck2) (size : ℕ) : Enc EncodeError Unit :=
  encodePublishAck mode self.packetId (toU8 self.reasonCode) self.properties self.reasonString size

end PublishAck2

/-! ## SUBSCRIBE and UNSUBSCRIBE -/

def SubscriptionOptions.toByte (self : SubscriptionOptions) : UInt8 :=
  toU8 self.qos ||| (self.noLocal.toUInt8 <<< 2) ||| (self.retainAsPublished.toUInt8 <<< 3)
    ||| (toU8 self.retainHandling <<< 4)

namespace Subscribe

def propertiesLen (self : Subscribe) : ℕ :=
  (self.id.map fun v => 1 + varIntLen v.1.toNat).getD 0
    + UserProperties.encodedSize self.userProperties

def encodedSize (self : Subscribe) : ℕ :=
  let propLen := self.propertiesLen
  let payloadLen := (self.topicFilters.map fun f => Encode.encodedSize f.1 + 1).sum
  Encode.encodedSize self.packetId + varIntLen propLen + propLen + payloadLen

def encodeId : Option NonZeroU32 → Enc EncodeError Unit
  | some id => do
    Enc.putU8 PropertyType.subId
    writeVariableLength id.1.toNat
  | none => pure ()

def encode (self : Subscribe) : Enc EncodeError Unit := do
  Encode.encode self.packetId
  writeVariableLength (self.propertiesLen % 2 ^ 32)
  encodeId self.id
  UserProperties.encode self.userProperties
  self.topicFilters.forM fun f => do
    Encode.encode f.1
    Enc.putU8 f.2.toByte

end Subscribe

namespace Unsubscribe

def encodedSize (self : Unsubscribe) : ℕ :=
  let propLen := UserProperties.encodedSize self.userProperties
  2 + varIntLen propLen + propLen + (self.topicFilters.map fun f => 2 + (utf8 f).length).sum

def encode (self : Unsubscribe) : Enc EncodeError Unit := do
  Encode.encode self.packetId
  writeVariableLength (UserProperties.encodedSize self.userProperties % 2 ^ 32)
  UserProperties.encode self.userProperties
  self.topicFilters.forM fun f => Encode.encode f

end Unsubscribe

/-! ## SUBACK and UNSUBACK -/

def encodeStatusAck {α : Type} [PrimEnum α] (mode : Overflow) (packetId : NonZeroU16)
    (properties : UserProperties) (reasonString : Option String) (status : List α) (size : ℕ) :
    Enc EncodeError Unit := do
  Encode.encode packetId
  let len := status.length % 2 ^ 32
  let propSize ← Enc.lift (subU32 mode size 2)
  let propSize ← Enc.lift (subU32 mode propSize len)
  AckProps.encode mode properties reasonString propSize
  status.forM fun reason => Enc.putU8 (toU8 reason)

namespace SubscribeAck

def encodedSize (mode : Overflow) (self : SubscribeAck) (limit : ℕ) :
    Except (Fault EncodeError) ℕ := do
  let len := self.status.length
  if len > 2 ^ 32 - 1 - 2 then pure (2 ^ 64 - 1)
  else do
    let limit ← subU32 mode limit 2
    let limit ← subU32 mode limit len
    pure (2 + AckProps.encodedSize self.properties self.reasonString limit + len)

def encode (mode : Overflow) (self : SubscribeAck) (size : ℕ) : Enc EncodeError Unit :=
  encodeStatusAck mode self.packetId self.properties self.reasonString self.status size

end SubscribeAck

namespace UnsubscribeAck

/-- Other than for SUBACK, the reduction of the limit is checked. -/
def encodedSize (self : UnsubscribeAck) (limit : ℕ) : ℕ :=
  let len := self.status.length
  2 + len + AckProps.encodedSize self.properties self.reasonString (reduceLimit limit (2 + len))

def encode (mode : Overflow) (self : UnsubscribeAck) (size : ℕ) : Enc EncodeError Unit :=
  encodeStatusAck mode self.packetId self.properties self.reasonString self.status size

end UnsubscribeAck

/-! ## DISCONNECT and AUTH -/

namespace Disconnect

def fixedPropertiesLen (self : Disconnect) : ℕ :=
  encodedPropertySize self.sessionExpiryIntervalSecs + encodedPropertySize self.serverReference

def encodedSize (self : Disconnect) (limit : ℕ) : ℕ :=
  let headerLen := 1
  let propLen := self.fixedPropertiesLen
  let diagLen := encodedSizeOptProps self.userProperties self.reasonString
    (reduceLimit limit (propLen + headerLen + 4))
  let propLen := propLen + diagLen
  headerLen + varIntLen propLen + propLen

def encodeFixed (mode : Overflow) (self : Disconnect) (size : ℕ) : Enc EncodeError Unit := do
  Enc.putU8 (toU8 self.reasonCode)
  let rest ← Enc.lift (subU32 mode size 1)
  let propLen ← Enc.lift (varIntLenFromSize mode rest)
  writeVariableLength propLen
  encodeProperty self.sessionExpiryIntervalSecs PropertyType.sessExpiryInt
  encodeProperty self.serverReference PropertyType.serverRef

def encode (mode : Overflow) (self : Disconnect) (size : ℕ) : Enc EncodeError Unit := do
  let startLen ← Enc.len
  self.encodeFixed mode size
  let now ← Enc.len
  let diagLen ← Enc.lift (subU32 mode size ((now - startLen) % 2 ^ 32))
  encodeOptProps self.userProperties self.reasonString diagLen

end Disconnect

namespace Auth

def fixedPropertiesLen (self : Auth) : ℕ :=
  encodedPropertySize self.authMethod + encodedPropertySize self.authData

def encodedSize (self : Auth) (limit : ℕ) : ℕ :=
  let headerLen := 1
  let propLen := self.fixedPropertiesLen
  let diagLen := encodedSizeOptProps self.userProperties self.reasonString
    (reduceLimit limit (propLen + headerLen + 4))
  let propLen := propLen + diagLen
  headerLen + varIntLen propLen + propLen

def encodeFixed (mode : Overflow) (self : Auth) (size : ℕ) : Enc EncodeError Unit := do
  Enc.putU8 (toU8 self.reasonCode)
  let rest ← Enc.lift (subU32 mode size 1)
  let propLen ← Enc.lift (varIntLenFromSize mode rest)
  writeVariableLength propLen
  encodeProperty self.authMethod PropertyType.authMethod
  encodeProperty self.authData PropertyType.authData

def encode (mode : Overflow) (self : Auth) (size : ℕ) : Enc EncodeError Unit := do
  let startLen ← Enc.len
  self.encodeFixed mode size
  let now ← Enc.len
  let diagLen ← Enc.lift (subU32 mode size ((now - startLen) % 2 ^ 32))
  encodeOptProps self.userProperties self.reasonString diagLen

end Auth

/-! ## Packets -/

namespace Packet

def encodedSize (mode : Overflow) (limit : ℕ) : Packet → Except (Fault EncodeError) ℕ
  | .connect pkt => .ok pkt.encodedSize
  | .publish pkt => .ok (Publish.encodedSize pkt)
  | .connectAck ack => .ok (ack.encodedSize limit)
  | .publishAck ack | .publishReceived ack => ack.encodedSize mode limit
  | .publishRelease ack | .publishComplete ack => ack.encodedSize mode limit
  | .subscribe sub => .ok sub.encodedSize
  | .subscribeAck ack => ack.encodedSize mode limit
  | .unsubscribe unsub => .ok unsub.encodedSize
  | .unsubscribeAck ack => .ok (ack.encodedSize limit)
  | .pingRequest | .pingResponse => .ok 0
  | .disconnect pkt => .ok (pkt.encodedSize limit)
  | .auth pkt => .ok (pkt.encodedSize limit)

def firstByte : Packet → UInt8
  | .connect _ => PacketType.connect
  | .connectAck _ => PacketType.connack
  | .publish pkt =>
    PacketType.publishStart ||| (toU8 pkt.qos <<< 1) ||| (pkt.dup.toUInt8 <<< 3)
      ||| pkt.retain.toUInt8
  | .publishAck _ => PacketType.puback
  | .publishReceived _ => PacketType.pubrec
  | .publishRelease _ => PacketType.pubrel
  | .publishComplete _ => PacketType.pubcomp
  | .subscribe _ => PacketType.subscribe
  | .subscribeAck _ => PacketType.suback
  | .unsubscribe _ => PacketType.unsubscribe
  | .unsubscribeAck _ => PacketType.unsuback
  | .pingRequest => PacketType.pingreq
  | .pingResponse => PacketType.pingresp
  | .disconnect _ => PacketType.disconnect
  | .auth _ => PacketType.auth

def encodeContent (mode : Overflow) (size : ℕ) : Packet → Enc EncodeError Unit
  | .connect pkt => pkt.encode
  | .connectAck ack => ack.encode mode size
  | .publish pkt => Publish.encode mode pkt size
  | .publishAck ack | .publishReceived ack => ack.encode mode size
  | .publishRelease ack | .publishComplete ack => ack.encode mode size
  | .subscribe sub => sub.encode
  | .subscribeAck ack => ack.encode mode size
  | .unsubscribe unsub => unsub.encode
  | .unsubscribeAck ack => ack.encode mode size
  | .pingRequest | .pingResponse => pure ()
  | .disconnect pkt => pkt.encode mode size
  | .auth pkt => pkt.encode mode size

def encode (mode : Overflow) (p : Packet) (checkSize : ℕ) : Enc EncodeError Unit :=
  match p with
  | .pingRequest | .pingResponse => Enc.putSlice [p.firstByte, 0]
  | _ => do
    Enc.putU8 p.firstByte
    writeVariableLength checkSize
    p.encodeContent mode checkSize

end Packet

end V5

end FerroMq.Codec
