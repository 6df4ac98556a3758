import FerroMq.Codec.Utils

/-!
# MQTT 5 packets

The packet types of `v5/packet`, with their reason codes.
-/

namespace FerroMq.Codec.V5

open Lib

/-! ## Reason codes -/

inductive PublishAckReason
  | success | noMatchingSubscribers | unspecifiedError | implementationSpecificError
  | notAuthorized | topicNameInvalid | packetIdentifierInUse | quotaExceeded
  | payloadFormatInvalid
  deriving DecidableEq, Repr

instance : PrimEnum PublishAckReason where
  toU8
    | .success => 0
    | .noMatchingSubscribers => 16
    | .unspecifiedError => 128
    | .implementationSpecificError => 131
    | .notAuthorized => 135
    | .topicNameInvalid => 144
    | .packetIdentifierInUse => 145
    | .quotaExceeded => 151
    | .payloadFormatInvalid => 153
  variants := [.success, .noMatchingSubscribers, .unspecifiedError, .implementationSpecificError,
    .notAuthorized, .topicNameInvalid, .packetIdentifierInUse, .quotaExceeded,
    .payloadFormatInvalid]
  mem_variants a := by cases a <;> decide
  nodup_variants := by decide

inductive PublishAck2Reason
  | success | packetIdNotFound
  deriving DecidableEq, Repr

instance : PrimEnum PublishAck2Reason where
  toU8
    | .success => 0
    | .packetIdNotFound => 146
  variants := [.success, .packetIdNotFound]
  mem_variants a := by cases a <;> decide
  nodup_variants := by decide

inductive ConnectAckReason
  | success | unspecifiedError | malformedPacket | protocolError | implementationSpecificError
  | unsupportedProtocolVersion | clientIdentifierNotValid | badUserNameOrPassword | notAuthorized
  | serverUnavailable | serverBusy | banned | badAuthenticationMethod | topicNameInvalid
  | packetTooLarge | quotaExceeded | payloadFormatInvalid | retainNotSupported | qosNotSupported
  | useAnotherServer | serverMoved | connectionRateExceeded
  deriving DecidableEq, Repr

instance : PrimEnum ConnectAckReason where
  toU8
    | .success => 0
    | .unspecifiedError => 128
    | .malformedPacket => 129
    | .protocolError => 130
    | .implementationSpecificError => 131
    | .unsupportedProtocolVersion => 132
    | .clientIdentifierNotValid => 133
    | .badUserNameOrPassword => 134
    | .notAuthorized => 135
    | .serverUnavailable => 136
    | .serverBusy => 137
    | .banned => 138
    | .badAuthenticationMethod => 140
    | .topicNameInvalid => 144
    | .packetTooLarge => 149
    | .quotaExceeded => 151
    | .payloadFormatInvalid => 153
    | .retainNotSupported => 154
    | .qosNotSupported => 155
    | .useAnotherServer => 156
    | .serverMoved => 157
    | .connectionRateExceeded => 159
  variants := [.success, .unspecifiedError, .malformedPacket, .protocolError,
    .implementationSpecificError, .unsupportedProtocolVersion, .clientIdentifierNotValid,
    .badUserNameOrPassword, .notAuthorized, .serverUnavailable, .serverBusy, .banned,
    .badAuthenticationMethod, .topicNameInvalid, .packetTooLarge, .quotaExceeded,
    .payloadFormatInvalid, .retainNotSupported, .qosNotSupported, .useAnotherServer, .serverMoved,
    .connectionRateExceeded]
  mem_variants a := by cases a <;> decide
  nodup_variants := by decide

/-- How retained messages are sent when a subscription is established -/
inductive RetainHandling
  | atSubscribe | atSubscribeNew | noAtSubscribe
  deriving DecidableEq, Repr

instance : PrimEnum RetainHandling where
  toU8
    | .atSubscribe => 0
    | .atSubscribeNew => 1
    | .noAtSubscribe => 2
  variants := [.atSubscribe, .atSubscribeNew, .noAtSubscribe]
  mem_variants a := by cases a <;> decide
  nodup_variants := by decide

inductive SubscribeAckReason
  | grantedQos0 | grantedQos1 | grantedQos2 | unspecifiedError | implementationSpecificError
  | notAuthorized | topicFilterInvalid | packetIdentifierInUse | quotaExceeded
  | sharedSubscriptionNotSupported | subscriptionIdentifiersNotSupported
  | wildcardSubscriptionsNotSupported
  deriving DecidableEq, Repr

instance : PrimEnum SubscribeAckReason where
  toU8
    | .grantedQos0 => 0
    | .grantedQos1 => 1
    | .grantedQos2 => 2
    | .unspecifiedError => 128
    | .implementationSpecificError => 131
    | .notAuthorized => 135
    | .topicFilterInvalid => 143
    | .packetIdentifierInUse => 145
    | .quotaExceeded => 151
    | .sharedSubscriptionNotSupported => 158
    | .subscriptionIdentifiersNotSupported => 161
    | .wildcardSubscriptionsNotSupported => 162
  variants := [.grantedQos0, .grantedQos1, .grantedQos2, .unspecifiedError,
    .implementationSpecificError, .notAuthorized, .topicFilterInvalid, .packetIdentifierInUse,
    .quotaExceeded, .sharedSubscriptionNotSupported, .subscriptionIdentifiersNotSupported,
    .wildcardSubscriptionsNotSupported]
  mem_variants a := by cases a <;> decide
  nodup_variants := by decide

inductive UnsubscribeAckReason
  | success | noSubscriptionExisted | unspecifiedError | implementationSpecificError
  | notAuthorized | topicFilterInvalid | packetIdentifierInUse
  deriving DecidableEq, Repr

instance : PrimEnum UnsubscribeAckReason where
  toU8
    | .success => 0
    | .noSubscriptionExisted => 17
    | .unspecifiedError => 128
    | .implementationSpecificError => 131
    | .notAuthorized => 135
    | .topicFilterInvalid => 143
    | .packetIdentifierInUse => 145
  variants := [.success, .noSubscriptionExisted, .unspecifiedError, .implementationSpecificError,
    .notAuthorized, .topicFilterInvalid, .packetIdentifierInUse]
  mem_variants a := by cases a <;> decide
  nodup_variants := by decide

inductive DisconnectReasonCode
  | normalDisconnection | disconnectWithWillMessage | unspecifiedError | malformedPacket
  | protocolError | implementationSpecificError | notAuthorized | serverBusy | serverShuttingDown
  | badAuthenticationMethod | keepAliveTimeout | sessionTakenOver | topicFilterInvalid
  | topicNameInvalid | receiveMaximumExceeded | topicAliasInvalid | packetTooLarge
  | messageRateTooHigh | quotaExceeded | administrativeAction | payloadFormatInvalid
  | retainNotSupported | qosNotSupported | useAnotherServer | serverMoved
  | sharedSubscriptionNotSupported | connectionRateExceeded | maximumConnectTime
  | subscriptionIdentifiersNotSupported | wildcardSubscriptionsNotSupported
  deriving DecidableEq, Repr

instance : PrimEnum DisconnectReasonCode where
  toU8
    | .normalDisconnection => 0
    | .disconnectWithWillMessage => 4
    | .unspecifiedError => 128
    | .malformedPacket => 129
    | .protocolError => 130
    | .implementationSpecificError => 131
    | .notAuthorized => 135
    | .serverBusy => 137
    | .serverShuttingDown => 139
    | .badAuthenticationMethod => 140
    | .keepAliveTimeout => 141
    | .sessionTakenOver => 142
    | .topicFilterInvalid => 143
    | .topicNameInvalid => 144
    | .receiveMaximumExceeded => 147
    | .topicAliasInvalid => 148
    | .packetTooLarge => 149
    | .messageRateTooHigh => 150
    | .quotaExceeded => 151
    | .administrativeAction => 152
    | .payloadFormatInvalid => 153
    | .retainNotSupported => 154
    | .qosNotSupported => 155
    | .useAnotherServer => 156
    | .serverMoved => 157
    | .sharedSubscriptionNotSupported => 158
    | .connectionRateExceeded => 159
    | .maximumConnectTime => 160
    | .subscriptionIdentifiersNotSupported => 161
    | .wildcardSubscriptionsNotSupported => 162
  variants := [.normalDisconnection, .disconnectWithWillMessage, .unspecifiedError,
    .malformedPacket, .protocolError, .implementationSpecificError, .notAuthorized, .serverBusy,
    .serverShuttingDown, .badAuthenticationMethod, .keepAliveTimeout, .sessionTakenOver,
    .topicFilterInvalid, .topicNameInvalid, .receiveMaximumExceeded, .topicAliasInvalid,
    .packetTooLarge, .messageRateTooHigh, .quotaExceeded, .administrativeAction,
    .payloadFormatInvalid, .retainNotSupported, .qosNotSupported, .useAnotherServer, .serverMoved,
    .sharedSubscriptionNotSupported, .connectionRateExceeded, .maximumConnectTime,
    .subscriptionIdentifiersNotSupported, .wildcardSubscriptionsNotSupported]
  mem_variants a := by cases a <;> decide
  nodup_variants := by decide

inductive AuthReasonCode
  | success | continueAuth | reAuth
  deriving DecidableEq, Repr

instance : PrimEnum AuthReasonCode where
  toU8
    | .success => 0
    | .continueAuth => 24
    | .reAuth => 25
  variants := [.success, .continueAuth, .reAuth]
  mem_variants a := by cases a <;> decide
  nodup_variants := by decide

/-! ## Packets -/

structure LastWill where
  qos : QoS
  retain : Bool
  topic : String
  message : Bytes
  willDelayIntervalSec : Option UInt32 := none
  correlationData : Option Bytes := none
  messageExpiryInterval : Option NonZeroU32 := none
  contentType : Option String := none
  userProperties : UserProperties := []
  isUtf8Payload : Option Bool := none
  responseTopic : Option String := none
  deriving DecidableEq

structure Connect where
  cleanStart : Bool := false
  keepAlive : UInt16 := 0
  sessionExpiryIntervalSecs : UInt32 := 0
  authMethod : Option String := none
  authData : Option Bytes := none
  requestProblemInfo : Bool := true
  requestResponseInfo : Bool := false
  receiveMax : Option NonZeroU16 := none
  topicAliasMax : UInt16 := 0
  userProperties : UserProperties := []
  maxPacketSize : Option NonZeroU32 := none
  lastWill : Option LastWill := none
  clientId : String := ""
  username : Option String := none
  password : Option Bytes := none
  cert : Option CertInfo := none
  deriving DecidableEq

def receiveMaxDefault : NonZeroU16 := ⟨65535, by decide⟩

structure ConnectAck where
  sessionPresent : Bool := false
  reasonCode : ConnectAckReason := .success
  sessionExpiryIntervalSecs : Option UInt32 := none
  receiveMax : NonZeroU16 := receiveMaxDefault
  maxQos : QoS := .exactlyOnce
  maxPacketSize : Option UInt32 := none
  assignedClientId : Option String := none
  topicAliasMax : UInt16 := 0
  retainAvailable : Bool := true
  wildcardSubscriptionAvailable : Bool := true
  subscriptionIdentifiersAvailable : Bool := true
  sharedSubscriptionAvailable : Bool := true
  serverKeepaliveSec : Option UInt16 := none
  responseInfo : Option String := none
  serverReference : Option String := none
  authMethod : Option String := none
  authData : Option Bytes := none
  reasonString : Option String := none
  userProperties : UserProperties := []
  deriving DecidableEq

def packetIdOne : NonZeroU16 := ⟨1, by decide⟩

structure PublishAck where
  packetId : NonZeroU16 := packetIdOne
  reasonCode : PublishAckReason := .success
  properties : UserProperties := []
  reasonString : Option String := none
  deriving DecidableEq

structure PublishAck2 where
  packetId : NonZeroU16 := packetIdOne
  reasonCode : PublishAck2Reason := .success
  properties : UserProperties := []
  reasonString : Option String := none
  deriving DecidableEq

structure SubscriptionOptions where
  qos : QoS := .atMostOnce
  noLocal : Bool := false
  retainAsPublished : Bool := false
  retainHandling : RetainHandling := .atSubscribe
  deriving DecidableEq, Repr

structure Subscribe where
  packetId : NonZeroU16
  id : Option NonZeroU32
  userProperties : UserProperties
  topicFilters : List (String × SubscriptionOptions)
  deriving DecidableEq

structure SubscribeAck where
  packetId : NonZeroU16
  properties : UserProperties
  reasonString : Option String
  status : List SubscribeAckReason
  deriving DecidableEq

structure Unsubscribe where
  packetId : NonZeroU16
  userProperties : UserProperties
  topicFilters : List String
  deriving DecidableEq

structure UnsubscribeAck where
  packetId : NonZeroU16
  properties : UserProperties
  reasonString : Option String
  status : List UnsubscribeAckReason
  deriving DecidableEq

structure Disconnect where
  reasonCode : DisconnectReasonCode := .normalDisconnection
  sessionExpiryIntervalSecs : Option UInt32 := none
  serverReference : Option String := none
  reasonString : Option String := none
  userProperties : UserProperties := []
  deriving DecidableEq

structure Auth where
  reasonCode : AuthReasonCode := .success
  authMethod : Option String := none
  authData : Option Bytes := none
  reasonString : Option String := none
  userProperties : UserProperties := []
  deriving DecidableEq

inductive Packet
  | connect (pkt : Connect)
  | connectAck (pkt : ConnectAck)
  | publish (pkt : Publish)
  | publishAck (pkt : PublishAck)
  | publishReceived (pkt : PublishAck)
  | publishRelease (pkt : PublishAck2)
  | publishComplete (pkt : PublishAck2)
  | subscribe (pkt : Subscribe)
  | subscribeAck (pkt : SubscribeAck)
  | unsubscribe (pkt : Unsubscribe)
  | unsubscribeAck (pkt : UnsubscribeAck)
  | pingRequest
  | pingResponse
  | disconnect (pkt : Disconnect)
  | auth (pkt : Auth)
  deriving DecidableEq

/-! ## Property identifiers -/

namespace PropertyType

def utf8Payload : UInt8 := 0x01
def msgExpiryInt : UInt8 := 0x02
def contentType : UInt8 := 0x03
def respTopic : UInt8 := 0x08
def corrData : UInt8 := 0x09
def subId : UInt8 := 0x0B
def sessExpiryInt : UInt8 := 0x11
def assndClientId : UInt8 := 0x12
def serverKa : UInt8 := 0x13
def authMethod : UInt8 := 0x15
def authData : UInt8 := 0x16
def reqProbInfo : UInt8 := 0x17
def willDelayInt : UInt8 := 0x18
def reqRespInfo : UInt8 := 0x19
def respInfo : UInt8 := 0x1A
def serverRef : UInt8 := 0x1C
def reasonString : UInt8 := 0x1F
def receiveMax : UInt8 := 0x21
def topicAliasMax : UInt8 := 0x22
def topicAlias : UInt8 := 0x23
def maxQos : UInt8 := 0x24
def retainAvail : UInt8 := 0x25
def user : UInt8 := 0x26
def maxPacketSize : UInt8 := 0x27
def wildcardSubAvail : UInt8 := 0x28
def subIdsAvail : UInt8 := 0x29
def sharedSubAvail : UInt8 := 0x2A

end PropertyType

end FerroMq.Codec.V5
