import FerroMq.Codec.V5.Decode

/-!
# The byte format of MQTT 5 packets

For every packet type, `wire` is the complete content and `Fits` says which values the format can hold.  The
encoder writes this format, possibly without parts of the error description, and the decoder reads it back.
-/

namespace FerroMq.Codec.V5

open Lib

/-! ## Parts of packets -/

section Parts

variable {α : Type}

def FitsAll [WireFormat α] (l : List α) : Prop := ∀ a ∈ l, Fits a

def propWire [WireFormat α] (id : UInt8) (o : Option α) : Bytes :=
  (o.map fun a => id :: wire a).getD []

def nonDefault [DecidableEq α] (v default : α) : Option α := if v = default then none else some v

@[simp] theorem getD_nonDefault [DecidableEq α] (v d : α) : (nonDefault v d).getD d = v := by
  unfold nonDefault
  split_ifs with h <;> simp [h]

@[simp] theorem propWire_none [WireFormat α] (id : UInt8) : propWire id (none : Option α) = [] := rfl

@[simp] theorem propWire_some [WireFormat α] (id : UInt8) (a : α) :
    propWire id (some a) = id :: wire a := rfl

theorem length_propWire [WireFormat α] (id : UInt8) (o : Option α) :
    (propWire id o).length = encodedPropertySize o := by
  cases o with
  | none => rfl
  | some a => simp [encodedPropertySize, length_wire, Nat.add_comm]

end Parts

def userWire (props : UserProperties) : Bytes := props.flatMap fun p => PropertyType.user :: wire p

theorem length_userWire (props : UserProperties) :
    (userWire props).length = UserProperties.encodedSize props := by
  simp [userWire, UserProperties.encodedSize, List.length_flatMap, length_wire, Nat.add_comm]

def subIdsWire (ids : List NonZeroU32) : Bytes :=
  ids.flatMap fun id => PropertyType.subId :: varLen id.1.toNat

/-- The properties that describe an error. -/
structure Diag where
  userProperties : UserProperties
  reasonString : Option String

namespace Diag

def wire (d : Diag) : Bytes :=
  userWire d.userProperties ++ propWire PropertyType.reasonString d.reasonString

def Fits (d : Diag) : Prop := FitsAll d.userProperties ∧ FitsOpt d.reasonString

/-- `d` is what a size limit has left of `full`: a first part of the user properties, and the reason
string only together with all of them. -/
structure TrimOf (full d : Diag) : Prop where
  isPrefix : d.userProperties <+: full.userProperties
  reasonString : d.reasonString = full.reasonString ∨ d.reasonString = none
  reasonString_of_dropped : d.userProperties ≠ full.userProperties → d.reasonString = none

end Diag

def withLen (props : Bytes) : Bytes := varLen props.length ++ props

theorem le_length_withLen (props : Bytes) : props.length ≤ (withLen props).length := by
  rw [withLen, List.length_append]
  omega

def SubIdFits (id : NonZeroU32) : Prop := id.1.toNat ≤ maxPacketSize

/-! ## CONNECT -/

namespace LastWill

def propsWire (w : LastWill) : Bytes :=
  propWire PropertyType.willDelayInt w.willDelayIntervalSec
    ++ propWire PropertyType.utf8Payload w.isUtf8Payload
    ++ propWire PropertyType.msgExpiryInt w.messageExpiryInterval
    ++ propWire PropertyType.contentType w.contentType
    ++ propWire PropertyType.respTopic w.responseTopic
    ++ propWire PropertyType.corrData w.correlationData
    ++ userWire w.userProperties

def wire (w : LastWill) : Bytes :=
  withLen w.propsWire ++ Codec.wire w.topic ++ Codec.wire w.message

def acc (w : LastWill) : Acc where
  willDelayIntervalSec := w.willDelayIntervalSec
  correlationData := w.correlationData
  messageExpiryInterval := w.messageExpiryInterval
  contentType := w.contentType
  userProperties := w.userProperties
  isUtf8Payload := w.isUtf8Payload
  responseTopic := w.responseTopic

structure Fits (w : LastWill) : Prop where
  topic : Codec.Fits w.topic
  message : Codec.Fits w.message
  correlationData : FitsOpt w.correlationData
  contentType : FitsOpt w.contentType
  responseTopic : FitsOpt w.responseTopic
  userProperties : FitsAll w.userProperties

end LastWill

namespace Connect

def propsWire (c : Connect) : Bytes :=
  propWire PropertyType.sessExpiryInt (nonDefault c.sessionExpiryIntervalSecs 0)
    ++ propWire PropertyType.authMethod c.authMethod
    ++ propWire PropertyType.authData c.authData
    ++ propWire PropertyType.reqProbInfo (nonDefault c.requestProblemInfo true)
    ++ propWire PropertyType.reqRespInfo (nonDefault c.requestResponseInfo false)
    ++ propWire PropertyType.receiveMax c.receiveMax
    ++ propWire PropertyType.maxPacketSize c.maxPacketSize
    ++ propWire PropertyType.topicAliasMax (nonDefault c.topicAliasMax 0)
    ++ userWire c.userProperties

def headWire (c : Connect) : Bytes :=
  sliceWire (utf8 "MQTT") ++ [5, c.flags] ++ Codec.wire c.keepAlive

def wire (c : Connect) : Bytes :=
  c.headWire ++ withLen c.propsWire ++ Codec.wire c.clientId
    ++ (c.lastWill.map LastWill.wire).getD [] ++ optWire c.username ++ optWire c.password

def acc (c : Connect) : Acc where
  sessionExpiryIntervalSecs := nonDefault c.sessionExpiryIntervalSecs 0
  authMethod := c.authMethod
  authData := c.authData
  requestProblemInfo := nonDefault c.requestProblemInfo true
  requestResponseInfo := nonDefault c.requestResponseInfo false
  receiveMax := c.receiveMax
  topicAliasMax := nonDefault c.topicAliasMax 0
  userProperties := c.userProperties
  maxPacketSize := c.maxPacketSize

structure Fits (c : Connect) : Prop where
  authMethod : FitsOpt c.authMethod
  authData : FitsOpt c.authData
  userProperties : FitsAll c.userProperties
  clientId : Codec.Fits c.clientId
  lastWill : ∀ w ∈ c.lastWill, LastWill.Fits w
  username : FitsOpt c.username
  password : FitsOpt c.password

end Connect

/-! ## CONNACK -/

namespace ConnectAck

def maxQosWire (a : ConnectAck) : Bytes :=
  if a.maxQos < .exactlyOnce then [PropertyType.maxQos, toU8 a.maxQos] else []

def fixedWire (a : ConnectAck) : Bytes :=
  propWire PropertyType.sessExpiryInt a.sessionExpiryIntervalSecs
    ++ propWire PropertyType.receiveMax (nonDefault a.receiveMax receiveMaxDefault)
    ++ a.maxQosWire
    ++ propWire PropertyType.retainAvail (nonDefault a.retainAvailable true)
    ++ propWire PropertyType.maxPacketSize a.maxPacketSize
    ++ propWire PropertyType.assndClientId a.assignedClientId
    ++ propWire PropertyType.topicAliasMax (nonDefault a.topicAliasMax 0)
    ++ propWire PropertyType.wildcardSubAvail (nonDefault a.wildcardSubscriptionAvailable true)
    ++ propWire PropertyType.subIdsAvail (nonDefault a.subscriptionIdentifiersAvailable true)
    ++ propWire PropertyType.sharedSubAvail (nonDefault a.sharedSubscriptionAvailable true)
    ++ propWire PropertyType.serverKa a.serverKeepaliveSec
    ++ propWire PropertyType.respInfo a.responseInfo
    ++ propWire PropertyType.serverRef a.serverReference
    ++ propWire PropertyType.authMethod a.authMethod
    ++ propWire PropertyType.authData a.authData

def diag (a : ConnectAck) : Diag := ⟨a.userProperties, a.reasonString⟩

def wire (a : ConnectAck) : Bytes :=
  [a.sessionPresent.toUInt8, toU8 a.reasonCode] ++ withLen (a.fixedWire ++ a.diag.wire)

def acc (a : ConnectAck) : Acc where
  sessionExpiryIntervalSecs := a.sessionExpiryIntervalSecs
  receiveMax := nonDefault a.receiveMax receiveMaxDefault
  maxQos := nonDefault a.maxQos .exactlyOnce
  retainAvailable := nonDefault a.retainAvailable true
  maxPacketSize := a.maxPacketSize
  assignedClientId := a.assignedClientId
  topicAliasMax := nonDefault a.topicAliasMax 0
  reasonString := a.reasonString
  userProperties := a.userProperties
  wildcardSubAvail := nonDefault a.wildcardSubscriptionAvailable true
  subIdsAvail := nonDefault a.subscriptionIdentifiersAvailable true
  sharedSubAvail := nonDefault a.sharedSubscriptionAvailable true
  serverKaSec := a.serverKeepaliveSec
  responseInfo := a.responseInfo
  serverReference := a.serverReference
  authMethod := a.authMethod
  authData := a.authData

structure Fits (a : ConnectAck) : Prop where
  assignedClientId : FitsOpt a.assignedClientId
  responseInfo : FitsOpt a.responseInfo
  serverReference : FitsOpt a.serverReference
  authMethod : FitsOpt a.authMethod
  authData : FitsOpt a.authData
  diag : a.diag.Fits

end ConnectAck

/-! ## PUBLISH -/

namespace PublishProperties

def propsWire (p : PublishProperties) : Bytes :=
  propWire PropertyType.topicAlias p.topicAlias
    ++ propWire PropertyType.corrData p.correlationData
    ++ propWire PropertyType.msgExpiryInt p.messageExpiryInterval
    ++ propWire PropertyType.contentType p.contentType
    ++ propWire PropertyType.utf8Payload (nonDefault p.isUtf8Payload false)
    ++ propWire PropertyType.respTopic p.responseTopic
    ++ subIdsWire p.subscriptionIds
    ++ userWire p.userProperties

def acc (p : PublishProperties) : Acc where
  messageExpiryInterval := p.messageExpiryInterval
  topicAlias := p.topicAlias
  contentType := p.contentType
  correlationData := p.correlationData
  subscriptionIds := p.subscriptionIds
  responseTopic := p.responseTopic
  isUtf8Payload := nonDefault p.isUtf8Payload false
  userProps := p.userProperties

structure Fits (p : PublishProperties) : Prop where
  correlationData : FitsOpt p.correlationData
  contentType : FitsOpt p.contentType
  responseTopic : FitsOpt p.responseTopic
  subscriptionIds : ∀ id ∈ p.subscriptionIds, SubIdFits id
  userProperties : FitsAll p.userProperties

end PublishProperties

namespace Publish

def props (p : Publish) : PublishProperties := p.properties.getD {}

def headWire (p : Publish) : Bytes :=
  Codec.wire p.topic ++ Publish.idWire p.qos p.packetId

def wire (p : Publish) : Bytes :=
  headWire p ++ withLen (PublishProperties.propsWire (props p)) ++ p.payload

structure Fits (p : Publish) : Prop where
  topic : Codec.Fits p.topic
  packetId : Publish.IdOk p.qos p.packetId
  properties : PublishProperties.Fits (props p)

end Publish

/-! ## Acknowledgements of PUBLISH -/

def ackWire (packetId : NonZeroU16) (reasonCode : UInt8) (diag : Diag) : Bytes :=
  Codec.wire packetId ++ [reasonCode] ++ withLen diag.wire

namespace PublishAck

def diag (a : PublishAck) : Diag := ⟨a.properties, a.reasonString⟩

def wire (a : PublishAck) : Bytes := ackWire a.packetId (toU8 a.reasonCode) a.diag

end PublishAck

namespace PublishAck2

def diag (a : PublishAck2) : Diag := ⟨a.properties, a.reasonString⟩

def wire (a : PublishAck2) : Bytes := ackWire a.packetId (toU8 a.reasonCode) a.diag

end PublishAck2

/-! ## SUBSCRIBE and UNSUBSCRIBE -/

namespace Subscribe

def propsWire (s : Subscribe) : Bytes := subIdsWire s.id.toList ++ userWire s.userProperties

def filtersWire (filters : List (String × SubscriptionOptions)) : Bytes :=
  filters.flatMap fun f => Codec.wire f.1 ++ [f.2.toByte]

def wire (s : Subscribe) : Bytes :=
  Codec.wire s.packetId ++ withLen s.propsWire ++ filtersWire s.topicFilters

structure Fits (s : Subscribe) : Prop where
  id : ∀ id ∈ s.id, SubIdFits id
  userProperties : FitsAll s.userProperties
  topicFilters : ∀ f ∈ s.topicFilters, Codec.Fits f.1

end Subscribe

namespace Unsubscribe

def filtersWire (filters : List String) : Bytes := filters.flatMap Codec.wire

def wire (u : Unsubscribe) : Bytes :=
  Codec.wire u.packetId ++ withLen (userWire u.userProperties) ++ filtersWire u.topicFilters

structure Fits (u : Unsubscribe) : Prop where
  userProperties : FitsAll u.userProperties
  topicFilters : FitsAll u.topicFilters

end Unsubscribe

/-! ## SUBACK and UNSUBACK -/

def statusWire {α : Type} [PrimEnum α] (status : List α) : Bytes := status.map toU8

def statusAckWire {α : Type} [PrimEnum α] (packetId : NonZeroU16) (diag : Diag) (status : List α) :
    Bytes :=
  Codec.wire packetId ++ withLen diag.wire ++ statusWire status

namespace SubscribeAck

def diag (a : SubscribeAck) : Diag := ⟨a.properties, a.reasonString⟩

def wire (a : SubscribeAck) : Bytes := statusAckWire a.packetId a.diag a.status

end SubscribeAck

namespace UnsubscribeAck

def diag (a : UnsubscribeAck) : Diag := ⟨a.properties, a.reasonString⟩

def wire (a : UnsubscribeAck) : Bytes := statusAckWire a.packetId a.diag a.status

end UnsubscribeAck

/-! ## DISCONNECT and AUTH -/

namespace Disconnect

def fixedWire (d : Disconnect) : Bytes :=
  propWire PropertyType.sessExpiryInt d.sessionExpiryIntervalSecs
    ++ propWire PropertyType.serverRef d.serverReference

def diag (d : Disconnect) : Diag := ⟨d.userProperties, d.reasonString⟩

def wire (d : Disconnect) : Bytes := [toU8 d.reasonCode] ++ withLen (d.fixedWire ++ d.diag.wire)

structure Fits (d : Disconnect) : Prop where
  serverReference : FitsOpt d.serverReference
  diag : d.diag.Fits

end Disconnect

namespace Auth

def fixedWire (a : Auth) : Bytes :=
  propWire PropertyType.authMethod a.authMethod ++ propWire PropertyType.authData a.authData

def diag (a : Auth) : Diag := ⟨a.userProperties, a.reasonString⟩

def wire (a : Auth) : Bytes := [toU8 a.reasonCode] ++ withLen (a.fixedWire ++ a.diag.wire)

structure Fits (a : Auth) : Prop where
  authMethod : FitsOpt a.authMethod
  authData : FitsOpt a.authData
  diag : a.diag.Fits

end Auth

/-! ## Packets -/

namespace Packet

def wire : Packet → Bytes
  | .connect pkt => pkt.wire
  | .connectAck ack => ack.wire
  | .publish pkt => Publish.wire pkt
  | .publishAck ack | .publishReceived ack => ack.wire
  | .publishRelease ack | .publishComplete ack => ack.wire
  | .subscribe sub => sub.wire
  | .subscribeAck ack => ack.wire
  | .unsubscribe unsub => unsub.wire
  | .unsubscribeAck ack => ack.wire
  | .pingRequest | .pingResponse => []
  | .disconnect pkt => pkt.wire
  | .auth pkt => pkt.wire

/-- The format can hold the packet. -/
def Fits : Packet → Prop
  | .connect pkt => pkt.Fits
  | .connectAck ack => ack.Fits
  | .publish pkt => Publish.Fits pkt
  | .publishAck ack | .publishReceived ack => ack.diag.Fits
  | .publishRelease ack | .publishComplete ack => ack.diag.Fits
  | .subscribe sub => sub.Fits
  | .subscribeAck ack => ack.diag.Fits
  | .unsubscribe unsub => unsub.Fits
  | .unsubscribeAck ack => ack.diag.Fits
  | .pingRequest | .pingResponse => True
  | .disconnect pkt => pkt.Fits
  | .auth pkt => pkt.Fits

/-- The decoder asks for more than the encoder: a filter to subscribe to, and a client id unless the
session starts clean. -/
def Readable : Packet → Prop
  | .connect pkt => pkt.clientId ≠ "" ∨ pkt.cleanStart = true
  | .subscribe sub => sub.topicFilters ≠ []
  | .unsubscribe unsub => unsub.topicFilters ≠ []
  | _ => True

/-- What the format does not record: the certificate of a CONNECT, and the difference between missing
and empty properties of a PUBLISH. -/
def normal : Packet → Packet
  | .connect pkt => .connect { pkt with cert := none }
  | .publish pkt => .publish { pkt with properties := some (Publish.props pkt) }
  | p => p

/-- The packets that the format records completely and the decoder accepts. -/
structure WellFormed (p : Packet) : Prop where
  fits : p.Fits
  readable : p.Readable
  normal_eq : p.normal = p

def diag : Packet → Option Diag
  | .connectAck ack => some ack.diag
  | .publishAck ack | .publishReceived ack => some ack.diag
  | .publishRelease ack | .publishComplete ack => some ack.diag
  | .subscribeAck ack => some ack.diag
  | .unsubscribeAck ack => some ack.diag
  | .disconnect pkt => some pkt.diag
  | .auth pkt => some pkt.diag
  | _ => none

def withDiag (d : Diag) : Packet → Packet
  | .connectAck ack =>
    .connectAck { ack with userProperties := d.userProperties, reasonString := d.reasonString }
  | .publishAck ack =>
    .publishAck { ack with properties := d.userProperties, reasonString := d.reasonString }
  | .publishReceived ack =>
    .publishReceived { ack with properties := d.userProperties, reasonString := d.reasonString }
  | .publishRelease ack =>
    .publishRelease { ack with properties := d.userProperties, reasonString := d.reasonString }
  | .publishComplete ack =>
    .publishComplete { ack with properties := d.userProperties, reasonString := d.reasonString }
  | .subscribeAck ack =>
    .subscribeAck { ack with properties := d.userProperties, reasonString := d.reasonString }
  | .unsubscribeAck ack =>
    .unsubscribeAck { ack with properties := d.userProperties, reasonString := d.reasonString }
  | .disconnect pkt =>
    .disconnect { pkt with userProperties := d.userProperties, reasonString := d.reasonString }
  | .auth pkt =>
    .auth { pkt with userProperties := d.userProperties, reasonString := d.reasonString }
  | p => p

/-- `p'` is `p` with a trimmed error description, or `p` itself if it has none. -/
def TrimOf (p p' : Packet) : Prop :=
  match p.diag with
  | some full => ∃ d, Diag.TrimOf full d ∧ p' = p.withDiag d
  | none => p' = p

end Packet

end FerroMq.Codec.V5
