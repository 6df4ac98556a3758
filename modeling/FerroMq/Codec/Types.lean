import FerroMq.Lib.Wire

/-!
# Types shared by the codecs

The errors of the codec crate, the enumerations of one byte (`prim_enum!`), the fixed header bytes and the
PUBLISH packet of both versions.
-/

namespace FerroMq.Codec

open Lib

inductive DecodeError
  | invalidProtocol
  | invalidLength
  | malformedPacket
  | unsupportedProtocolLevel
  | connectReservedFlagSet
  | invalidConnectFlags
  | connAckReservedFlagSet
  | invalidClientId
  | unsupportedPacketType
  | packetIdRequired
  | maxSizeExceeded (size max : ℕ)
  | invalidTopicFilter
  | invalidTopicName
  | utf8Error
  deriving DecidableEq, Repr

inductive EncodeError
  | overMaxPacketSize (size max : ℕ)
  | invalidLength
  | malformedPacket
  | packetIdRequired
  | unsupportedVersion
  deriving DecidableEq, Repr

def maxPacketSize : ℕ := 0xFFFFFFF

/-! ## Enumerations of one byte -/

/-- A `prim_enum!` type: its variants with their values.  The value of a variant is also its
conversion into a byte. -/
class PrimEnum (α : Type) where
  toU8 : α → UInt8
  variants : List α
  mem_variants : ∀ a, a ∈ variants
  nodup_variants : (variants.map toU8).Nodup

export PrimEnum (toU8)

def PrimEnum.tryFrom {α : Type} [PrimEnum α] (v : UInt8) : Dec DecodeError α :=
  match (variants : List α).find? fun a => toU8 a = v with
  | some a => pure a
  | none => Dec.fail .malformedPacket

namespace PrimEnum

variable {α : Type} [PrimEnum α]

theorem toU8_injective {a b : α} (h : toU8 a = toU8 b) : a = b :=
  List.inj_on_of_nodup_map nodup_variants (mem_variants a) (mem_variants b) h

theorem find?_toU8 (a : α) : ((variants : List α).find? fun b => toU8 b = toU8 a) = some a := by
  rcases hf : (variants : List α).find? fun b => decide (toU8 b = toU8 a) with _ | b
  · have := List.find?_eq_none.1 hf a (mem_variants a)
    simp at this
  · have hb : toU8 b = toU8 a := by simpa using List.find?_some hf
    rw [toU8_injective hb]

theorem reads_tryFrom (a : α) : Dec.Reads (tryFrom (toU8 a)) [] a := by
  unfold tryFrom
  rw [find?_toU8]
  exact .pure a

theorem safe_tryFrom {v : UInt8} {src : Bytes} {Q : α → Bytes → Prop}
    (h : ∀ a, toU8 a = v → Q a src) : Dec.Safe (tryFrom v) src Q := by
  unfold tryFrom
  rcases hf : (variants : List α).find? fun a => decide (toU8 a = v) with _ | a
  · exact .fail
  · exact .pure (h a (by simpa using List.find?_some hf))

end PrimEnum

inductive QoS
  | atMostOnce
  | atLeastOnce
  | exactlyOnce
  deriving DecidableEq, Repr

instance : PrimEnum QoS where
  toU8
    | .atMostOnce => 0
    | .atLeastOnce => 1
    | .exactlyOnce => 2
  variants := [.atMostOnce, .atLeastOnce, .exactlyOnce]
  mem_variants a := by cases a <;> decide
  nodup_variants := by decide

instance : LT QoS := ⟨fun a b => toU8 a < toU8 b⟩

instance (a b : QoS) : Decidable (a < b) := inferInstanceAs (Decidable (toU8 a < toU8 b))

/-! ## Fixed header bytes -/

namespace PacketType

def connect : UInt8 := 0b00010000
def connack : UInt8 := 0b00100000
def publishStart : UInt8 := 0b00110000
def publishEnd : UInt8 := 0b00111111
def puback : UInt8 := 0b01000000
def pubrec : UInt8 := 0b01010000
def pubrel : UInt8 := 0b01100010
def pubcomp : UInt8 := 0b01110000
def subscribe : UInt8 := 0b10000010
def suback : UInt8 := 0b10010000
def unsubscribe : UInt8 := 0b10100010
def unsuback : UInt8 := 0b10110000
def pingreq : UInt8 := 0b11000000
def pingresp : UInt8 := 0b11010000
def disconnect : UInt8 := 0b11100000
def auth : UInt8 := 0b11110000

end PacketType

structure FixedHeader where
  firstByte : UInt8
  remainingLength : ℕ
  deriving DecidableEq, Repr

/-! ## Flags of CONNECT and PUBLISH -/

namespace ConnectFlags

def username : UInt8 := 0b10000000
def password : UInt8 := 0b01000000
def willRetain : UInt8 := 0b00100000
def willQos : UInt8 := 0b00011000
def will : UInt8 := 0b00000100
def cleanStart : UInt8 := 0b00000010

end ConnectFlags

def hasFlag (flags flag : UInt8) : Bool := flags &&& flag = flag

def connectFlags (username password : Bool) (will : Option (Bool × QoS)) (cleanStart : Bool) : UInt8 :=
  (if username then ConnectFlags.username else 0) ||| (if password then ConnectFlags.password else 0)
    ||| (match will with
      | some (retain, qos) =>
        ConnectFlags.will ||| (if retain then ConnectFlags.willRetain else 0) ||| (toU8 qos <<< 3)
      | none => 0)
    ||| (if cleanStart then ConnectFlags.cleanStart else 0)

/-- What the flags tell the decoder. -/
structure ConnectFlags.Record (flags : UInt8) (u p : Bool) (w : Option (Bool × QoS)) (s : Bool) :
    Prop where
  reserved : flags &&& 1 = 0
  username : hasFlag flags ConnectFlags.username = u
  password : hasFlag flags ConnectFlags.password = p
  cleanStart : hasFlag flags ConnectFlags.cleanStart = s
  will : hasFlag flags ConnectFlags.will = w.isSome
  willRetain : ∀ b ∈ w, hasFlag flags ConnectFlags.willRetain = b.1
  willQos : ∀ b ∈ w, (flags &&& ConnectFlags.willQos) >>> 3 = toU8 b.2
  noWill : w = none →
    flags &&& ConnectFlags.willQos = 0 ∧ hasFlag flags ConnectFlags.willRetain = false

theorem connectFlags_record (u p : Bool) (w : Option (Bool × QoS)) (s : Bool) :
    ConnectFlags.Record (connectFlags u p w s) u p w s := by
  rcases w with _ | ⟨retain, qos⟩
  · constructor <;> try rintro _ ⟨⟩
    all_goals
      revert u p s
      decide
  · constructor <;> try rintro _ ⟨⟩
    all_goals
      revert u p s retain
      cases qos <;> decide

theorem publishFlags_spec (qos : QoS) (dup retain : Bool) :
    let first := PacketType.publishStart ||| (toU8 qos <<< 1) ||| (dup.toUInt8 <<< 3)
      ||| retain.toUInt8
    let flags := first &&& 0b00001111
    (PacketType.publishStart ≤ first ∧ first ≤ PacketType.publishEnd) ∧
      (flags &&& 0b0110) >>> 1 = toU8 qos ∧
      decide (flags &&& 0b1000 = 0b1000) = dup ∧ decide (flags &&& 0b0001 = 0b0001) = retain := by
  revert dup retain
  cases qos <;> decide

/-! ## Values -/

def NonZeroU16 := {n : UInt16 // n ≠ 0}
  deriving DecidableEq

def NonZeroU32 := {n : UInt32 // n ≠ 0}
  deriving DecidableEq

abbrev UserProperty := String × String

abbrev UserProperties := List UserProperty

structure Protocol where
  level : UInt8
  deriving DecidableEq, Repr

def Protocol.name (self : Protocol) : String := if self.level = 3 then "MQIsdp" else "MQTT"

structure CertInfo where
  commonName : Option String
  subject : String
  serial : Option String
  organization : Option String
  deriving DecidableEq, Repr

structure PublishProperties where
  topicAlias : Option NonZeroU16 := none
  correlationData : Option Bytes := none
  messageExpiryInterval : Option NonZeroU32 := none
  contentType : Option String := none
  userProperties : UserProperties := []
  isUtf8Payload : Bool := false
  responseTopic : Option String := none
  subscriptionIds : List NonZeroU32 := []
  deriving DecidableEq

structure Publish where
  dup : Bool
  retain : Bool
  qos : QoS
  topic : String
  packetId : Option NonZeroU16
  payload : Bytes
  properties : Option PublishProperties
  deriving DecidableEq

end FerroMq.Codec
