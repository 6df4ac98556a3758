import FerroMq.Session.Transfer
import FerroMq.Topic.Prefixes

/-!
# Shared and ordinary subscriptions of a client

For MQTT 5 the filters `f`, `$share/g/f` and `$share/h/f` are three subscriptions (`ShareStore.held`).  Here
`$share/g` is taken off before a filter is stored, so one takes the place of the other, and an UNSUBSCRIBE ends
whichever is there.  `coexists_iff` says when this does no harm.
-/

namespace FerroMq

open Lib Codec Option Function

/-! ## Requests -/

def Subscribe.fromV3 (topicFilter : TopicFilter) (qos : QoS)
    (sharedSubscription limitSubscription : Bool) : Except FilterError Subscribe := do
  let (topicFilter, sharedGroup, limitSubs) ←
    parseTopicFilter topicFilter sharedSubscription limitSubscription
  return { topicFilter, opts := .v3 { qos, sharedGroup, limitSubs } }

def Subscribe.fromV5 (topicFilter : TopicFilter) (opts : V5.SubscriptionOptions)
    (sharedSubscription limitSubscription : Bool) (subId : Option NonZeroU32) :
    Except FilterError Subscribe := do
  let (topicFilter, sharedGroup, limitSubs) ←
    parseTopicFilter topicFilter sharedSubscription limitSubscription
  return {
    topicFilter
    opts := .v5 {
      qos := opts.qos
      sharedGroup
      limitSubs
      noLocal := opts.noLocal
      retainAsPublished := opts.retainAsPublished
      retainHandling := opts.retainHandling
      id := subId } }

structure Unsubscribe where
  topicFilter : TopicFilter
  sharedGroup : Option SharedGroup

def Unsubscribe.«from» (topicFilter : TopicFilter) (sharedSubscription limitSubscription : Bool) :
    Except FilterError Unsubscribe := do
  let (topicFilter, sharedGroup, _) ←
    parseTopicFilter topicFilter sharedSubscription limitSubscription
  return { topicFilter, sharedGroup }

/-- One filter of a SUBSCRIBE or UNSUBSCRIBE packet, with the answers of the hooks. -/
inductive FilterRequest
  | subscribeV3 (topicFilter : TopicFilter) (qos : QoS) (adjusted : Option TopicFilter)
    (acl : Option SubscribeReturn)
  | subscribeV5 (topicFilter : TopicFilter) (opts : V5.SubscriptionOptions)
    (subId : Option NonZeroU32) (adjusted : Option TopicFilter) (acl : Option SubscribeReturn)
  | unsubscribe (topicFilter : TopicFilter) (adjusted : Option TopicFilter)

namespace FilterRequest

def parse (sharedSubscription limitSubscription : Bool) :
    FilterRequest → Except FilterError (Option SharedGroup × ClientPacket)
  | subscribeV3 topicFilter qos adjusted acl => do
    let sub ← Subscribe.fromV3 topicFilter qos sharedSubscription limitSubscription
    return (sub.opts.sharedGroup, .subscribe sub adjusted acl)
  | subscribeV5 topicFilter opts subId adjusted acl => do
    let sub ← Subscribe.fromV5 topicFilter opts sharedSubscription limitSubscription subId
    return (sub.opts.sharedGroup, .subscribe sub adjusted acl)
  | unsubscribe topicFilter adjusted => do
    let unsub ← Unsubscribe.from topicFilter sharedSubscription limitSubscription
    return (unsub.sharedGroup, .unsubscribe unsub.topicFilter adjusted)

theorem eq_of_asksFor {sharedSubscription limitSubscription : Bool} {r : FilterRequest}
    {g g' : Option SharedGroup} {p : ClientPacket}
    (h : r.parse sharedSubscription limitSubscription = .ok (g, p)) (hg : p.AsksFor g') : g' = g := by
  cases r with
  | subscribeV3 f qos adjusted acl | subscribeV5 f opts subId adjusted acl =>
    obtain ⟨sub, -, hsub⟩ := bind_eq_ok_iff.1 h
    cases hsub
    exact hg.symm
  | unsubscribe f adjusted =>
    obtain ⟨unsub, -, hunsub⟩ := bind_eq_ok_iff.1 h
    cases hunsub
    exact hg.elim

end FilterRequest

/-! ## The subscriptions by group and filter -/

/-- The store with the subscriptions that the client should have, by share group and filter. -/
structure ShareStore where
  store : SessionStore
  held : Option SharedGroup × TopicFilter → Option SubscriptionOptions := fun _ => none

namespace ShareStore

variable (cfg : ListenerConfig) (id : Id) (sharedSubscription limitSubscription : Bool)

def granted (s : ShareStore) (p : ClientPacket) : List (TopicFilter × Option SubscriptionOptions) :=
  (s.store.receive cfg id p).log.drop s.store.log.length

def request (s : ShareStore) (r : FilterRequest) : ShareStore :=
  match r.parse sharedSubscription limitSubscription with
  | .error _ => s
  | .ok (group, p) =>
    { store := s.store.receive cfg id p
      held := writes s.held ((s.granted cfg id p).map fun w => ((group, w.1), w.2)) }

/-- The router and the session hold the subscriptions that the client should have. -/
structure Coexists (s : ShareStore) : Prop where
  router : ∀ group f, (s.store.router.subscription f id.clientId).filter
    (fun x => x.2.sharedGroup = group) = (s.held (group, f)).map fun opts => (id, opts)
  subs : ∀ group f,
    (s.store.subs.lookup f).filter (fun opts => opts.sharedGroup = group) = s.held (group, f)

/-- The request is not granted, or the client has no subscription to the filter with another group. -/
def KeepsGroup (s : ShareStore) (r : FilterRequest) : Prop :=
  match r.parse sharedSubscription limitSubscription with
  | .error _ => True
  | .ok (group, p) => ∀ w ∈ s.granted cfg id p, ∀ opts, s.store.subs.lookup w.1 = some opts →
      opts.sharedGroup = group

variable {cfg id sharedSubscription limitSubscription} {s s' : ShareStore}

/-- The router and the session agree, and what they have is what the client should have. -/
theorem coexists_iff_agreesOn : s.Coexists id ↔
    s.store.AgreesOn id (fun _ => True) (fun f => s.store.subs.lookup f) ∧ ∀ group f,
      (s.store.subs.lookup f).filter (fun opts => opts.sharedGroup = group) = s.held (group, f) := by
  constructor
  · rintro ⟨hrouter, hsubs⟩
    refine ⟨⟨fun f _ => ?_, fun _ => rfl⟩, hsubs⟩
    simp only [← hsubs] at hrouter
    cases hlookup : s.store.subs.lookup f with
    | none =>
      cases hsub : s.store.router.subscription f id.clientId with
      | none => rfl
      | some x => simpa [hlookup, hsub] using hrouter x.2.sharedGroup f
    | some opts =>
      have hgroup := hrouter opts.sharedGroup f
      rw [hlookup, filter_some, if_pos (by simp), map_some,
        filter_eq_some_iff] at hgroup
      exact hgroup.1
  · rintro ⟨hagrees, hsubs⟩
    refine ⟨fun group f => ?_, hsubs⟩
    rw [hagrees.router f trivial, ← hsubs, filter_map]
    rfl

theorem coexists_grants_iff {group : Option SharedGroup} {f : TopicFilter}
    {value : Option SubscriptionOptions} (h : s.Coexists id)
    (hvalue : ∀ opts, value = some opts → opts.sharedGroup = group)
    (hgrants : SessionStore.Grants id s.store (f, value) s'.store)
    (hheld : s'.held = Function.update s.held (group, f) value) :
    s'.Coexists id ↔ ∀ opts, s.store.subs.lookup f = some opts → opts.sharedGroup = group := by
  obtain ⟨hagrees, hsubs⟩ := coexists_iff_agreesOn.1 h
  have hagrees' := hgrants.2 _ _ hagrees
  have hlookup : (fun f => s'.store.subs.lookup f) =
      Function.update (fun f => s.store.subs.lookup f) f value := funext hagrees'.subs
  have hother {group' : Option SharedGroup} (hne : group' ≠ group) :
      value.filter (fun opts => opts.sharedGroup = group') = none := by
    refine filter_eq_none_iff.2 fun opts hopts heq => hne ?_
    exact (of_decide_eq_true heq).symm.trans (hvalue opts hopts)
  rw [coexists_iff_agreesOn, hlookup]
  constructor
  · rintro ⟨-, hsubs'⟩ opts hopts
    by_contra hne
    -- the subscription that was there is lost
    have hlost := hsubs' opts.sharedGroup f
    rw [hagrees'.subs, update_self, hother hne, hheld,
      update_of_ne (fun heq => hne (congrArg Prod.fst heq)), ← hsubs, hopts] at hlost
    rw [filter_some, if_pos (decide_eq_true rfl)] at hlost
    cases hlost
  · intro hgroup
    refine ⟨hagrees', fun group' f' => ?_⟩
    rw [hagrees'.subs, hheld]
    rcases eq_or_ne f' f with rfl | hf
    · rw [update_self]
      rcases eq_or_ne group' group with rfl | hne
      · rw [update_self]
        cases value with
        | none => rfl
        | some opts => rw [filter_some, if_pos (decide_eq_true (hvalue opts rfl))]
      · rw [update_of_ne (fun heq => hne (congrArg Prod.fst heq)), ← hsubs, hother hne]
        refine (filter_eq_none_iff.2 fun opts hopts heq => hne ?_).symm
        exact (of_decide_eq_true heq).symm.trans (hgroup opts hopts)
    · rw [update_of_ne hf, update_of_ne (fun heq => hf (congrArg Prod.snd heq)),
        hsubs]

theorem coexists_request_iff (r : FilterRequest) (h : s.Coexists id) :
    (s.request cfg id sharedSubscription limitSubscription r).Coexists id ↔
      s.KeepsGroup cfg id sharedSubscription limitSubscription r := by
  rw [request, KeepsGroup]
  cases hparse : r.parse sharedSubscription limitSubscription with
  | error e => exact iff_of_true h trivial
  | ok x =>
    obtain ⟨group, p⟩ := x
    dsimp only
    rcases @SessionStore.receive_cases cfg id s.store p with hsame | ⟨f, value, hasks, hgrants⟩
    · have hnone : s.granted cfg id p = [] := by
        rw [granted, hsame, List.drop_length]
      rw [hnone, hsame]
      exact iff_of_true h nofun
    · have hone : s.granted cfg id p = [(f, value)] := by
        rw [granted, hgrants.1, List.drop_left]
      rw [hone, List.map_singleton, List.forall_mem_singleton]
      exact coexists_grants_iff h
        (fun opts hopts => FilterRequest.eq_of_asksFor hparse (hasks opts hopts)) hgrants rfl

/-- The router and the session hold the subscriptions by group and filter at all times exactly if no
request is granted for a filter that the client has subscribed to with another group. -/
theorem coexists_iff (cfg : ListenerConfig) (id : Id) (sharedSubscription limitSubscription : Bool)
    (s : ShareStore) (h : s.Coexists id) (requests : List FilterRequest) :
    (∀ pre, pre <+: requests →
        (pre.foldl (request cfg id sharedSubscription limitSubscription) s).Coexists id) ↔
      Along (request cfg id sharedSubscription limitSubscription)
        (KeepsGroup cfg id sharedSubscription limitSubscription) s requests :=
  forall_prefix_iff_along_of_step (fun _ r hs => coexists_request_iff r hs) h requests

theorem coexists_new {router : DefaultRouter} {id : Id}
    (h : ∀ f, router.subscription f id.clientId = none) : Coexists id { store := { router } } :=
  ⟨fun _ f => by rw [h f]; rfl, fun _ f => by rw [Finmap.lookup_empty]; rfl⟩

def both : List FilterRequest :=
  [.subscribeV5 "t" {} none none none, .subscribeV5 "$share/g/t" {} none none none]

theorem coexists_iff_both :
    let id := Id.ofClient 1 "c" 0
    let cfg : ListenerConfig := ⟨0, 0, .exactlyOnce⟩
    (∀ pre, pre <+: both →
        (pre.foldl (request cfg id true false) { store := { router := {} } }).Coexists id) ↔
      Along (request cfg id true false) (KeepsGroup cfg id true false)
        { store := { router := {} } } both :=
  coexists_iff _ _ _ _ _ (coexists_new fun _ => rfl) _

/-- The second subscription takes the place of the first. -/
theorem ordinary_replaced_by_shared :
    let id := Id.ofClient 1 "c" 0
    let s := both.foldl (request ⟨0, 0, .exactlyOnce⟩ id true false) { store := { router := {} } }
    (s.held (none, "t")).isSome ∧ (s.held (some "g", "t")).isSome ∧
      (s.store.subs.lookup "t").map SubscriptionOptions.sharedGroup = some (some "g") ∧
      (s.store.router.subscription "t" "c").map (fun x => x.2.sharedGroup) = some (some "g") ∧
      ¬ s.Coexists id := by
  intro id s
  have hheld : (s.held (none, "t")).isSome := by decide +kernel
  have hsubs : (s.store.subs.lookup "t").filter (fun opts => opts.sharedGroup = none) = none := by
    decide +kernel
  refine ⟨hheld, by decide +kernel, by decide +kernel, by decide +kernel, fun h => ?_⟩
  rw [← h.subs none "t", hsubs] at hheld
  cases hheld

end ShareStore

end FerroMq
