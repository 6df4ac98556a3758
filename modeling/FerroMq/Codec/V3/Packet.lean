import FerroMq.Codec.Utils

/-!
# MQTT 3 packets

The packets of MQTT 3.1 and 3.1.1.  PUBLISH is shared with MQTT 5.
-/

namespace FerroMq.Codec.V3

open Lib

inductive ConnectAckReason
  | connectionAccepted
  | unacceptableProtocolVersion
  | identifierRejected
  | serviceUnavailable
  | badUserNameOrPassword
  | notAuthorized
  | reserved
  deriving DecidableEq, Repr

instance : PrimEnum ConnectAckReason where
  toU8
    | .connectionAccepted => 0
    | .unacceptableProtocolVersion => 1
    | .identifierRejected => 2
    | .serviceUnavailable => 3
    | .badUserNameOrPassword => 4
    | .notAuthorized => 5
    | .reserved => 6
  variants := [.connectionAccepted, .unacceptableProtocolVersion, .identifierRejected,
    .serviceUnavailable, .badUserNameOrPassword, .notAuthorized, .reserved]
  mem_variants a := by cases a <;> decide
  nodup_variants := by decide

structure LastWill where
  qos : QoS
  retain : Bool
  topic : String
  message : Bytes
  deriving DecidableEq, Repr

structure Connect where
  protocol : Protocol
  cleanSession : Bool
  keepAlive : UInt16
  lastWill : Option LastWill
  clientId : String
  username : Option String
  password : Option Bytes
  cert : Option CertInfo
  deriving DecidableEq, Repr

structure ConnectAck where
  returnCode : ConnectAckReason
  sessionPresent : Bool
  deriving DecidableEq, Repr

inductive SubscribeReturnCode
  | success (qos : QoS)
  | failure
  deriving DecidableEq, Repr

inductive Packet
  | connect (connect : Connect)
  | connectAck (ack : ConnectAck)
  | publish (publish : Publish)
  | publishAck (packetId : NonZeroU16)
  | publishReceived (packetId : NonZeroU16)
  | publishRelease (packetId : NonZeroU16)
  | publishComplete (packetId : NonZeroU16)
  | subscribe (packetId : NonZeroU16) (topicFilters : List (String × QoS))
  | subscribeAck (packetId : NonZeroU16) (status : List SubscribeReturnCode)
  | unsubscribe (packetId : NonZeroU16) (topicFilters : List String)
  | unsubscribeAck (packetId : NonZeroU16)
  | pingRequest
  | pingResponse
  | disconnect
  deriving DecidableEq

end FerroMq.Codec.V3
