import FerroMq.Router.Default

/-!
# Subscribing and unsubscribing

`SessionState::_subscribe` and `unsubscribe`, with the functions of `LockEntry` that they end in: a subscription
is kept in the router and on the list of the session.  The log lists what the client has been granted: the
filter with its options, or with nothing once it is unsubscribed.
-/

namespace FerroMq

open Lib Codec

abbrev SessionSubs := Map TopicFilter SubscriptionOptions

structure Subscribe where
  topicFilter : TopicFilter
  opts : SubscriptionOptions
  deriving DecidableEq

structure SubscribeReturn where
  ackReason : V5.SubscribeAckReason
  prevOpts : Option SubscriptionOptions
  deriving DecidableEq

namespace SubscribeReturn

def newSuccess (qos : QoS) (prevOpts : Option SubscriptionOptions) : SubscribeReturn :=
  ⟨match qos with
    | .atMostOnce => .grantedQos0
    | .atLeastOnce => .grantedQos1
    | .exactlyOnce => .grantedQos2, prevOpts⟩

def newFailure (reason : V5.SubscribeAckReason) : SubscribeReturn := ⟨reason, none⟩

def success (self : SubscribeReturn) : Option QoS :=
  match self.ackReason with
  | .grantedQos0 => some .atMostOnce
  | .grantedQos1 => some .atLeastOnce
  | .grantedQos2 => some .exactlyOnce
  | _ => none

def failure (self : SubscribeReturn) : Bool :=
  match self.ackReason with
  | .grantedQos0 | .grantedQos1 | .grantedQos2 => false
  | _ => true

end SubscribeReturn

def Codec.QoS.lessValue (self qos : QoS) : QoS := if self < qos then self else qos

namespace SubscriptionOptions

def setQos (self : SubscriptionOptions) (qos : QoS) : SubscriptionOptions :=
  match self with
  | v3 opts => v3 { opts with qos }
  | v5 opts => v5 { opts with qos }

@[simp] theorem sharedGroup_setQos (self : SubscriptionOptions) (qos : QoS) :
    (self.setQos qos).sharedGroup = self.sharedGroup := by cases self <;> rfl

def limitSubs : SubscriptionOptions → Option ℕ
  | v3 opts => opts.limitSubs
  | v5 opts => opts.limitSubs

end SubscriptionOptions

/-- What `_subscribe` reads of the configuration. -/
structure ListenerConfig where
  maxSubscriptions : ℕ
  maxTopicLevels : ℕ
  maxQosAllowed : QoS

inductive SubscribeError
  | tooManySubscriptions
  | tooManyTopicLevels
  | subscribeLimited (limit count : ℕ) (topicFilter : TopicFilter)
  | topic (e : TopicError)
  deriving DecidableEq

/-- The router, the list of the session and the log. -/
structure SessionStore where
  router : DefaultRouter
  subs : SessionSubs := ∅
  log : List (TopicFilter × Option SubscriptionOptions) := []

namespace SessionStore

def entrySubscribe (s : SessionStore) (id : Id) (sub : Subscribe) :
    Except SubscribeError SubscribeReturn × SessionStore :=
  match s.router.add sub.topicFilter id sub.opts with
  | (.ok (), router) =>
    (.ok (.newSuccess sub.opts.qos (s.subs.lookup sub.topicFilter)),
      { router
        subs := s.subs.insert sub.topicFilter sub.opts
        log := s.log ++ [(sub.topicFilter, some sub.opts)] })
  | (.error e, router) => (.error (.topic e), { s with router })

def entryUnsubscribe (s : SessionStore) (id : Id) (topicFilter : TopicFilter) :
    Bool × SessionStore :=
  ((s.subs.lookup topicFilter).isSome,
    { router := (s.router.remove topicFilter id).2
      subs := s.subs.erase topicFilter
      log := s.log ++ [(topicFilter, none)] })

def limited (s : SessionStore) (id : Id) (topicFilter : TopicFilter) (limit : ℕ) : Bool × ℕ :=
  match s.router.relations.lookup topicFilter with
  | some rels =>
    if id.clientId ∈ rels then (true, rels.keys.card - 1)
    else (rels.keys.card < limit, rels.keys.card)
  | none => (true, 0)

def checkLimits (s : SessionStore) (cfg : ListenerConfig) (id : Id) (sub : Subscribe) :
    Except SubscribeError Unit := do
  if 0 < cfg.maxSubscriptions ∧ cfg.maxSubscriptions ≤ s.subs.keys.card then
    throw .tooManySubscriptions
  if 0 < cfg.maxTopicLevels then
    let topic ← (Topic.fromStr sub.topicFilter).mapError .topic
    if cfg.maxTopicLevels < topic.levels.length then throw .tooManyTopicLevels
  match sub.opts.limitSubs with
  | some limit =>
    let (allow, count) := s.limited id sub.topicFilter limit
    if !allow then throw (.subscribeLimited limit count sub.topicFilter)
  | none => pure ()

/-- `_subscribe`, with the answers of the hooks: the adjusted filter and the result of the check of
the access rules. -/
def subscribe (s : SessionStore) (cfg : ListenerConfig) (id : Id) (sub : Subscribe)
    (adjusted : Option TopicFilter) (acl : Option SubscribeReturn) :
    Except SubscribeError SubscribeReturn × SessionStore :=
  match s.checkLimits cfg id sub with
  | .error e => (.error e, s)
  | .ok () =>
    let opts := sub.opts.setQos (sub.opts.qos.lessValue cfg.maxQosAllowed)
    let topicFilter := adjusted.getD sub.topicFilter
    match acl with
    | some aclResult =>
      match aclResult.success with
      | some qos => s.entrySubscribe id ⟨topicFilter, opts.setQos (opts.qos.lessValue qos)⟩
      | none => (.ok aclResult, s)
    | none => s.entrySubscribe id ⟨topicFilter, opts⟩

/-- `unsubscribe`, with the answer of the hook. -/
def unsubscribe (s : SessionStore) (id : Id) (topicFilter : TopicFilter)
    (adjusted : Option TopicFilter) : Bool × SessionStore :=
  s.entryUnsubscribe id (adjusted.getD topicFilter)

end SessionStore

end FerroMq
