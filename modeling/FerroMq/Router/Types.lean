import FerroMq.Codec.V5.Packet
import FerroMq.Lib.Map
import FerroMq.Topic.Tree

/-!
# Types of the router

Session ids, subscription options and counters of `types.rs` and `counter.rs`.
-/

namespace FerroMq

open Lib Codec

abbrev NodeId := UInt64

abbrev ListenerId := UInt16

/-- Milliseconds since the epoch.  Times are far from the limits of `i64`, so their sums do not
overflow. -/
abbrev TimestampMillis := ℤ

abbrev ClientId := String

abbrev UserName := String

abbrev TopicFilter := String

abbrev SharedGroup := String

/-- Clients that have been sent a message, for a shared subscription with its filter and group. -/
abbrev ForwardedRecipients := List (ClientId × Option (TopicFilter × SharedGroup))

structure SocketAddr where
  ip : String
  port : UInt16
  deriving DecidableEq, Repr

/-- The id of a session.  Two ids are equal if all fields are. -/
structure Id where
  nodeId : NodeId
  lid : ListenerId
  localAddr : Option SocketAddr
  remoteAddr : Option SocketAddr
  clientId : ClientId
  username : Option UserName
  createTime : TimestampMillis
  deriving DecidableEq, Repr

def Id.ofClient (nodeId : NodeId) (clientId : ClientId) (now : TimestampMillis) : Id :=
  { nodeId, lid := 0, localAddr := none, remoteAddr := none, clientId, username := none,
    createTime := now }

structure SubOptionsV3 where
  qos : QoS
  sharedGroup : Option SharedGroup
  limitSubs : Option ℕ
  deriving DecidableEq, Repr

structure SubOptionsV5 where
  qos : QoS
  sharedGroup : Option SharedGroup
  limitSubs : Option ℕ
  noLocal : Bool
  retainAsPublished : Bool
  retainHandling : V5.RetainHandling
  /-- The subscription identifier. -/
  id : Option NonZeroU32
  deriving DecidableEq

inductive SubscriptionOptions
  | v3 (opts : SubOptionsV3)
  | v5 (opts : SubOptionsV5)
  deriving DecidableEq

instance : Inhabited SubscriptionOptions :=
  ⟨.v3 { qos := .atMostOnce, sharedGroup := none, limitSubs := none }⟩

namespace SubscriptionOptions

def noLocal : SubscriptionOptions → Option Bool
  | v3 _ => none
  | v5 opts => some opts.noLocal

def retainAsPublished : SubscriptionOptions → Option Bool
  | v3 _ => none
  | v5 opts => some opts.retainAsPublished

def subscriptionIdentifier : SubscriptionOptions → Option NonZeroU32
  | v3 _ => none
  | v5 opts => opts.id

def sharedGroup : SubscriptionOptions → Option SharedGroup
  | v3 opts => opts.sharedGroup
  | v5 opts => opts.sharedGroup

def qos : SubscriptionOptions → QoS
  | v3 opts => opts.qos
  | v5 opts => opts.qos

def isV3 : SubscriptionOptions → Bool
  | v3 _ => true
  | v5 _ => false

end SubscriptionOptions

/-- A counter with the largest value it has had. -/
structure Counter where
  count : ℤ := 0
  max : ℤ := 0
  deriving DecidableEq, Repr

namespace Counter

def inc (c : Counter) : Counter := ⟨c.count + 1, Max.max c.max (c.count + 1)⟩

def dec (c : Counter) : Counter := { c with count := c.count - 1 }

@[simp] theorem count_inc (c : Counter) : c.inc.count = c.count + 1 := rfl

@[simp] theorem count_dec (c : Counter) : c.dec.count = c.count - 1 := rfl

end Counter

end FerroMq
