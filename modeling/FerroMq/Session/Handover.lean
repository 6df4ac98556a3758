import FerroMq.Lib.Walk
import FerroMq.Router.Concurrent
import FerroMq.Session.Subscribe

/-!
# A session and its successor

The clean-up of a session `a`, the connection of the next session `b` of the client and the `subscribe` calls of
`b`, interleaved.  `_remove_with` looks up the session again for each filter, which is `b` by then, and strikes
the filter off its list (`struck_off`).  If `b` waits with each filter until it has been cleaned up, it keeps
all of them (`successor_kept`).
-/

namespace FerroMq

open Lib DefaultRouter
open Function (update update_self update_of_ne)

/-- How far the removal of a session has come, after its peer has been taken out. -/
inductive Remover
  | done
  /-- Before its list is read. -/
  | taken (id : Id)
  /-- Inside `router.remove(topic_filter, id)`. -/
  | unsubscribing (id : Id) (task : Task) (topicFilter : TopicFilter) (rest : List TopicFilter)
  /-- Before `self.session()`. -/
  | looking (id : Id) (topicFilter : TopicFilter) (rest : List TopicFilter)
  /-- Before `subscriptions_remove(topic_filter)` of the session that was found. -/
  | striking (id session : Id) (topicFilter : TopicFilter) (rest : List TopicFilter)
  deriving DecidableEq

/-- How far `clean` has come. -/
inductive Cleaner
  /-- Before `id_same`. -/
  | start
  /-- Before `remove_with`. -/
  | checked
  | removing (r : Remover)
  deriving DecidableEq

/-- How far the handshake of the new session has come. -/
inductive Connector
  /-- Before `_remove(clear_subscriptions)` of `kick`. -/
  | start (clearSubscriptions : Bool)
  | removing (r : Remover)
  /-- Before `set`. -/
  | setting
  | connected
  deriving DecidableEq

/-- How far a `subscribe` call has come. -/
inductive Subscriber
  | idle
  /-- Before the peer is looked up. -/
  | start (topicFilter : TopicFilter) (opts : SubscriptionOptions)
  /-- Inside `router.add(topic_filter, id, opts)`, the peer being `session`. -/
  | adding (session : Id) (task : Task) (topicFilter : TopicFilter) (opts : SubscriptionOptions)
  /-- Before `subscriptions_add`. -/
  | listing (session : Id) (topicFilter : TopicFilter) (opts : SubscriptionOptions)
  deriving DecidableEq

structure Handover where
  router : DefaultRouter
  /-- The session of the client in `peers`. -/
  peer : Option Id
  /-- The subscription lists of the sessions. -/
  subs : Id → SessionSubs
  cleaner : Cleaner
  connector : Connector
  calls : ℕ → Subscriber
  /-- The filters of the `subscribe` calls that have returned without an error. -/
  completed : List TopicFilter

namespace Remover

def begin (id : Id) : List TopicFilter → Remover
  | [] => done
  | f :: rest => unsubscribing id (.start (.remove f id)) f rest

def fails : Task → Bool
  | .removeTopic f => match Topic.fromStr f with
    | .ok _ => false
    | .error _ => true
  | _ => false

def next (order : Walk TopicFilter SubscriptionOptions) (router : DefaultRouter) (peer : Option Id)
    (subs : Id → SessionSubs) : Remover → Remover × DefaultRouter × (Id → SessionSubs)
  | done => (done, router, subs)
  | taken id => (begin id (order.list (subs id)).keys, router, subs)
  | unsubscribing id task f rest =>
    let (task', router) := task.next router
    if task' = .idle then (if fails task then begin id rest else looking id f rest, router, subs)
    else (unsubscribing id task' f rest, router, subs)
  | looking id f rest =>
    match peer with
    | some session => (striking id session f rest, router, subs)
    | none => (begin id rest, router, subs)
  | striking id session f rest =>
    (begin id rest, router, Function.update subs session ((subs session).erase f))

def Pending (subs : Id → SessionSubs) (f : TopicFilter) : Remover → Prop
  | done => False
  | taken id => f ∈ subs id
  | unsubscribing _ _ g rest | looking _ g rest | striking _ _ g rest => f = g ∨ f ∈ rest

def Deleting (f : TopicFilter) : Remover → Prop
  | unsubscribing _ task _ _ => task = .removeRelation f
  | _ => False

instance (subs : Id → SessionSubs) (f : TopicFilter) : (r : Remover) → Decidable (r.Pending subs f)
  | done => inferInstanceAs (Decidable False)
  | taken id => inferInstanceAs (Decidable (f ∈ subs id))
  | unsubscribing _ _ g rest | looking _ g rest | striking _ _ g rest =>
    inferInstanceAs (Decidable (f = g ∨ f ∈ rest))

instance (f : TopicFilter) : (r : Remover) → Decidable (r.Deleting f)
  | unsubscribing _ task _ _ => inferInstanceAs (Decidable (task = .removeRelation f))
  | done | taken _ | looking .. | striking .. => inferInstanceAs (Decidable False)

end Remover

namespace Cleaner

def Pending (subs : Id → SessionSubs) (f : TopicFilter) : Cleaner → Prop
  | removing r => r.Pending subs f
  | start | checked => False

def Deleting (f : TopicFilter) : Cleaner → Prop
  | removing r => r.Deleting f
  | start | checked => False

instance (subs : Id → SessionSubs) (f : TopicFilter) : (c : Cleaner) → Decidable (c.Pending subs f)
  | removing r => inferInstanceAs (Decidable (r.Pending subs f))
  | start | checked => inferInstanceAs (Decidable False)

instance (f : TopicFilter) : (c : Cleaner) → Decidable (c.Deleting f)
  | removing r => inferInstanceAs (Decidable (r.Deleting f))
  | start | checked => inferInstanceAs (Decidable False)

end Cleaner

namespace Handover

inductive Action
  | clean
  | connect
  | subscribe (k : ℕ) (topicFilter : TopicFilter) (opts : SubscriptionOptions)
  | advance (k : ℕ)

variable (order : Walk TopicFilter SubscriptionOptions) (a b : Id)

def clean (s : Handover) : Handover :=
  match s.cleaner with
  | .start => { s with cleaner := if s.peer = some a then .checked else .removing .done }
  | .checked =>
    if s.peer = some a then { s with peer := none, cleaner := .removing (.taken a) }
    else { s with cleaner := .removing .done }
  | .removing r =>
    let (r, router, subs) := r.next order s.router s.peer s.subs
    { s with cleaner := .removing r, router, subs }

def connect (s : Handover) : Handover :=
  match s.connector with
  | .start clearSubscriptions =>
    { s with
      peer := none
      connector := match s.peer with
        | some id => .removing (if clearSubscriptions then .taken id else .done)
        | none => .setting }
  | .removing .done => { s with connector := .setting }
  | .removing r =>
    let (r, router, subs) := r.next order s.router s.peer s.subs
    { s with connector := .removing r, router, subs }
  | .setting => { s with peer := some b, connector := .connected }
  | .connected => s

def advance (s : Handover) (k : ℕ) : Handover :=
  match s.calls k with
  | .idle => s
  | .start f opts =>
    { s with
      calls := Function.update s.calls k (match s.peer with
        | some session => .adding session (.start (.add f b opts)) f opts
        | none => .idle) }
  | .adding session task f opts =>
    let (task', router) := task.next s.router
    { s with
      router
      calls := Function.update s.calls k (match task, task' with
        | .insertRelation .., _ => .listing session f opts
        | _, .idle => .idle
        | _, _ => .adding session task' f opts) }
  | .listing session f opts =>
    { s with
      subs := Function.update s.subs session ((s.subs session).insert f opts)
      calls := Function.update s.calls k .idle
      completed := f :: s.completed }

def exec (s : Handover) : Action → Handover
  | .clean => s.clean order a
  | .connect => s.connect order b
  | .subscribe k f opts =>
    match s.calls k, s.connector with
    | .idle, .connected => { s with calls := Function.update s.calls k (.start f opts) }
    | _, _ => s
  | .advance k => s.advance b k

def run (s : Handover) (actions : List Action) : Handover := actions.foldl (exec order a b) s

def init (router : DefaultRouter) (subs : Id → SessionSubs) (clearSubscriptions : Bool) : Handover where
  router
  peer := some a
  subs
  cleaner := .start
  connector := .start clearSubscriptions
  calls _ := .idle
  completed := []

/-- The new session has every filter that it has subscribed to, in the router and in its list. -/
def Keeps (s : Handover) : Prop :=
  ∀ f ∈ s.completed, (∃ opts, s.router.subscription f b.clientId = some (b, opts)) ∧ f ∈ s.subs b

/-- What the next section of a `subscribe` call needs. -/
def Clear (c : Cleaner) (subs : Id → SessionSubs) : Subscriber → Prop
  | .adding _ (.insertRelation f _ _) _ _ => ¬ c.Deleting f
  | .listing _ f _ => ¬ c.Pending subs f
  | _ => True

/-- The new session does not enter the relations of a filter while the clean-up is about to delete
them, and does not put a filter on its list that is still to be cleaned up. -/
def Apart (s : Handover) : Action → Prop
  | .advance k => Clear s.cleaner s.subs (s.calls k)
  | _ => True

instance (c : Cleaner) (subs : Id → SessionSubs) : (x : Subscriber) → Decidable (Clear c subs x)
  | .adding _ (.insertRelation f _ _) _ _ => inferInstanceAs (Decidable (¬ c.Deleting f))
  | .listing _ f _ => inferInstanceAs (Decidable (¬ c.Pending subs f))
  | .idle | .start .. | .adding _ (.start _) _ _ | .adding _ .idle _ _
  | .adding _ (.removeRelation _) _ _ | .adding _ (.removeTopic _) _ _ =>
    inferInstanceAs (Decidable True)

instance (s : Handover) : (x : Action) → Decidable (s.Apart x)
  | .advance k => inferInstanceAs (Decidable (Clear s.cleaner s.subs (s.calls k)))
  | .clean | .connect | .subscribe .. => inferInstanceAs (Decidable True)

end Handover

/-! ## Sections of a removal -/

/-- A section of `router.remove(f, id)`. -/
inductive OfRemove (id : Id) (f : TopicFilter) : Task → Prop
  | start : OfRemove id f (.start (.remove f id))
  | removeRelation : OfRemove id f (.removeRelation f)
  | removeTopic : OfRemove id f (.removeTopic f)

namespace OfRemove

variable {id : Id} {f : TopicFilter} {task : Task} (h : OfRemove id f task) (r : DefaultRouter)
include h

theorem next_of : (task.next r).1 = .idle ∨ OfRemove id f (task.next r).1 := by
  cases h with
  | start =>
    rw [Task.next]
    rcases r.removeSubscriber f id with ⟨_ | _ | _, r'⟩
    · exact .inl rfl
    · exact .inl rfl
    · exact .inr .removeRelation
  | removeRelation => exact .inr .removeTopic
  | removeTopic =>
    rw [Task.next]
    cases Topic.fromStr f <;> exact .inl rfl

theorem subscription_next (g : TopicFilter) (c : ClientId) :
    (task.next r).2.subscription g c = r.subscription g c ∨
      (task.next r).2.subscription g c = none ∧
        ((∃ opts, r.subscription g c = some (id, opts)) ∨ task = .removeRelation g) := by
  cases h with
  | start =>
    have hnext : (Task.next r (.start (.remove f id))).2 = (r.removeSubscriber f id).2 := by
      rw [Task.next]
      rcases r.removeSubscriber f id with ⟨_ | _ | _, r'⟩ <;> rfl
    rw [hnext, subscription_removeSubscriber]
    split_ifs with hcond
    · obtain ⟨rfl, rfl, henable⟩ := hcond
      exact .inr ⟨rfl, .inl (removeEnable_iff.1 henable)⟩
    · exact .inl rfl
  | removeRelation =>
    rw [Task.next, subscription_removeRelation]
    split_ifs with hg
    · exact .inr ⟨rfl, .inr (by rw [hg])⟩
    · exact .inl rfl
  | removeTopic =>
    rw [Task.next]
    cases Topic.fromStr f <;> exact .inl rfl

theorem next_deleting {g : TopicFilter} (hnext : (task.next r).1 = .removeRelation g) (c : ClientId) :
    (task.next r).2.subscription g c = none := by
  cases h with
  | start =>
    rw [Task.next] at hnext ⊢
    rcases hs : r.removeSubscriber f id with ⟨_ | _ | _, r'⟩
    all_goals rw [hs] at hnext
    · cases hnext
    · cases hnext
    · cases hnext
      exact subscription_of_emptied hs c
  | removeRelation => cases hnext
  | removeTopic =>
    rw [Task.next] at hnext
    cases ht : Topic.fromStr f <;> rw [ht] at hnext <;> cases hnext

end OfRemove

namespace Remover

/-- The removal is that of the session `id`. -/
inductive IsOf (id : Id) : Remover → Prop
  | done : IsOf id .done
  | taken : IsOf id (.taken id)
  | unsubscribing {task : Task} {f : TopicFilter} (h : OfRemove id f task) (rest : List TopicFilter) :
      IsOf id (.unsubscribing id task f rest)
  | looking (f : TopicFilter) (rest : List TopicFilter) : IsOf id (.looking id f rest)
  | striking (session : Id) (f : TopicFilter) (rest : List TopicFilter) :
      IsOf id (.striking id session f rest)

variable {id : Id} {rem : Remover} {r : DefaultRouter} {subs : Id → SessionSubs}
  {f g : TopicFilter}

theorem isOf_begin (id : Id) (rest : List TopicFilter) : IsOf id (begin id rest) := by
  cases rest with
  | nil => exact .done
  | cons f rest => exact .unsubscribing .start rest

theorem pending_begin {rest : List TopicFilter} : (begin id rest).Pending subs f ↔ f ∈ rest := by
  cases rest with
  | nil | cons g rest => simp [begin, Pending]

theorem not_deleting_begin {rest : List TopicFilter} : ¬ (begin id rest).Deleting f := by
  cases rest with
  | nil => exact fun h => h
  | cons g rest => exact fun h => nomatch h

/-- What a section of the removal of the session `id` does. -/
structure Stepped (id : Id) (rem : Remover) (r : DefaultRouter) (subs : Id → SessionSubs)
    (out : Remover × DefaultRouter × (Id → SessionSubs)) : Prop where
  isOf : IsOf id out.1
  subscription : ∀ g c, out.2.1.subscription g c = r.subscription g c ∨
    out.2.1.subscription g c = none ∧
      ((∃ opts, r.subscription g c = some (id, opts)) ∨ rem.Deleting g)
  deleting : ∀ g c, out.1.Deleting g → out.2.1.subscription g c = none
  pending : ∀ f, out.1.Pending out.2.2 f → rem.Pending subs f
  kept : ∀ i f, f ∈ subs i → ¬ rem.Pending subs f → f ∈ out.2.2 i

theorem stepped_of_unchanged {rem' : Remover} (hof : IsOf id rem')
    (hdel : ∀ g, ¬ rem'.Deleting g) (hpending : ∀ f, rem'.Pending subs f → rem.Pending subs f) :
    Stepped id rem r subs (rem', r, subs) where
  isOf := hof
  subscription _ _ := .inl rfl
  deleting g _ h := absurd h (hdel g)
  pending := hpending
  kept _ _ h _ := h

theorem stepped_unsubscribing {task : Task} (h : OfRemove id f task) {rest : List TopicFilter}
    {rem' : Remover} (hof : IsOf id rem')
    (hdel : ∀ g, rem'.Deleting g → (task.next r).1 = .removeRelation g)
    (hpending : ∀ g, rem'.Pending subs g → g = f ∨ g ∈ rest) :
    Stepped id (.unsubscribing id task f rest) r subs (rem', (task.next r).2, subs) where
  isOf := hof
  subscription := h.subscription_next r
  deleting g c hg := h.next_deleting r (hdel g hg) c
  pending := hpending
  kept _ _ h _ := h

theorem IsOf.stepped (h : IsOf id rem) (order : Walk TopicFilter SubscriptionOptions)
    (r : DefaultRouter) (peer : Option Id) (subs : Id → SessionSubs) :
    Stepped id rem r subs (rem.next order r peer subs) := by
  cases h with
  | done => exact stepped_of_unchanged .done (fun _ h => h) fun _ h => h
  | taken =>
    refine stepped_of_unchanged (isOf_begin id _) (fun _ => not_deleting_begin) fun f hf => ?_
    obtain ⟨⟨k, v⟩, hmem, rfl⟩ := List.mem_map.1 (pending_begin.1 hf)
    exact Finmap.mem_of_lookup_eq_some (order.mem_list.1 hmem)
  | @unsubscribing task f hof rest =>
    change Stepped _ _ _ _ (if (task.next r).1 = .idle then _ else _)
    split_ifs with hidle hfails
    · exact stepped_unsubscribing hof (isOf_begin id rest) (fun g hg => absurd hg not_deleting_begin)
        fun g hg => .inr (pending_begin.1 hg)
    · exact stepped_unsubscribing hof (.looking f rest) (fun g hg => hg.elim) fun g hg => hg
    · exact stepped_unsubscribing hof (.unsubscribing ((hof.next_of r).resolve_left hidle) rest)
        (fun g hg => hg) fun g hg => hg
  | looking f rest =>
    cases peer with
    | none =>
      exact stepped_of_unchanged (isOf_begin id rest) (fun _ => not_deleting_begin)
        fun g hg => .inr (pending_begin.1 hg)
    | some session =>
      exact stepped_of_unchanged (.striking session f rest) (fun _ h => h) fun _ h => h
  | striking session f rest =>
    refine ⟨isOf_begin id rest, fun _ _ => .inl rfl, fun _ _ hg => absurd hg not_deleting_begin,
      fun g hg => .inr (pending_begin.1 hg), fun i g hg hpending => ?_⟩
    rcases eq_or_ne i session with rfl | hi
    · change g ∈ update subs i ((subs i).erase f) i
      rw [update_self, Finmap.mem_erase]
      exact ⟨fun heq => hpending (.inl heq), hg⟩
    · change g ∈ update subs session ((subs session).erase f) i
      rwa [update_of_ne hi]

variable {out : Remover × DefaultRouter × (Id → SessionSubs)}

theorem Stepped.none (h : Stepped id rem r subs out) {c : ClientId}
    (hnone : r.subscription g c = none) : out.2.1.subscription g c = none := by
  rcases h.subscription g c with heq | ⟨heq, -⟩
  · rw [heq, hnone]
  · exact heq

theorem Stepped.some (h : Stepped id rem r subs out)
    (hdel : ∀ g, rem.Deleting g → ∀ c, r.subscription g c = Option.none) {c : ClientId} {i : Id}
    {opts : SubscriptionOptions} (hi : i ≠ id) (hsub : r.subscription g c = Option.some (i, opts)) :
    out.2.1.subscription g c = Option.some (i, opts) := by
  rcases h.subscription g c with heq | ⟨-, ⟨opts', heq⟩ | hg⟩
  · rw [heq, hsub]
  · rw [hsub] at heq
    exact absurd (congrArg Prod.fst (Option.some_injective _ heq)) hi
  · rw [hdel g hg c] at hsub
    cases hsub

end Remover

/-! ## The invariant -/

/-- A call of the session `b`, which has entered the router before it enters the list. -/
inductive Subscriber.IsOf (b : Id) (r : DefaultRouter) : Subscriber → Prop
  | idle : IsOf b r .idle
  | start (f : TopicFilter) (opts : SubscriptionOptions) : IsOf b r (.start f opts)
  | inserting (f : TopicFilter) (opts : SubscriptionOptions) :
      IsOf b r (.adding b (.start (.add f b opts)) f opts)
  | entering (f : TopicFilter) (opts : SubscriptionOptions) :
      IsOf b r (.adding b (.insertRelation f b opts) f opts)
  | listing {f : TopicFilter} (opts : SubscriptionOptions) {opts' : SubscriptionOptions}
      (h : r.subscription f b.clientId = some (b, opts')) : IsOf b r (.listing b f opts)

theorem Subscriber.IsOf.mono {b : Id} {r r' : DefaultRouter} {x : Subscriber} (h : x.IsOf b r)
    (hr : ∀ f opts, r.subscription f b.clientId = some (b, opts) →
      ∃ opts', r'.subscription f b.clientId = some (b, opts')) : x.IsOf b r' := by
  cases h with
  | idle => exact .idle
  | start f opts => exact .start f opts
  | inserting f opts => exact .inserting f opts
  | entering f opts => exact .entering f opts
  | listing opts hsub =>
    obtain ⟨opts', hsub'⟩ := hr _ _ hsub
    exact .listing opts hsub'

namespace Handover

structure Inv (a b : Id) (s : Handover) : Prop where
  cleaner : ∀ rem, s.cleaner = .removing rem → rem.IsOf a
  connector : ∀ rem, s.connector = .removing rem → ∃ id, rem.IsOf id
  /-- The new session begins to work when it is connected, and it stays the peer. -/
  waiting : s.connector ≠ .connected → (∀ k, s.calls k = .idle) ∧ s.completed = []
  peer : s.connector = .connected → s.peer = some b
  calls : ∀ k, (s.calls k).IsOf b s.router
  deleting : ∀ f, s.cleaner.Deleting f → ∀ c, s.router.subscription f c = none
  keeps : s.Keeps b
  apart : ∀ f ∈ s.completed, ¬ s.cleaner.Pending s.subs f

variable {order : Walk TopicFilter SubscriptionOptions} {a b : Id} {s : Handover}

theorem inv_init (a b : Id) (router : DefaultRouter) (subs : Id → SessionSubs)
    (clearSubscriptions : Bool) : Inv a b (init a router subs clearSubscriptions) where
  cleaner _ h := nomatch h
  connector _ h := nomatch h
  waiting _ := ⟨fun _ => rfl, rfl⟩
  peer h := nomatch h
  calls _ := .idle
  deleting _ h := h.elim
  keeps _ h := nomatch h
  apart _ h := nomatch h

theorem Inv.clean (h : Inv a b s) (hne : a ≠ b) : Inv a b (s.clean order a) := by
  unfold Handover.clean
  split
  next hstart =>
    have hidle : ∀ c : Cleaner, (c = .checked ∨ c = .removing .done) →
        Inv a b { s with cleaner := c } := by
      rintro c (rfl | rfl)
      · exact ⟨fun _ h => (nomatch h), h.connector, h.waiting, h.peer, h.calls,
          fun _ h => h.elim, h.keeps, fun _ _ h => h⟩
      · exact ⟨fun _ h => by cases h; exact .done, h.connector, h.waiting, h.peer, h.calls,
          fun _ h => h.elim, h.keeps, fun _ _ h => h⟩
    split_ifs
    · exact hidle _ (.inl rfl)
    · exact hidle _ (.inr rfl)
  next hchecked =>
    split_ifs with hpeer
    · -- the new session is not connected yet
      have hwait : s.connector ≠ .connected := fun hcon => by
        rw [h.peer hcon] at hpeer
        exact hne (Option.some_injective _ hpeer).symm
      refine ⟨fun _ h => by cases h; exact .taken, h.connector, h.waiting, fun h => absurd h hwait,
        h.calls, fun _ h => h.elim, h.keeps, fun f hf => ?_⟩
      rw [(h.waiting hwait).2] at hf
      cases hf
    · exact ⟨fun _ h => by cases h; exact .done, h.connector, h.waiting, h.peer, h.calls,
        fun _ h => h.elim, h.keeps, fun _ _ h => h⟩
  next rem hrem =>
    have hstep := (h.cleaner rem hrem).stepped order s.router s.peer s.subs
    generalize rem.next order s.router s.peer s.subs = out at hstep ⊢
    have hdel : ∀ g, rem.Deleting g → ∀ c, s.router.subscription g c = none := fun g hg =>
      h.deleting g (by rw [hrem]; exact hg)
    have hsome {f : TopicFilter} {opts : SubscriptionOptions}
        (hsub : s.router.subscription f b.clientId = some (b, opts)) :
        out.2.1.subscription f b.clientId = some (b, opts) := hstep.some hdel hne.symm hsub
    have hpending {f : TopicFilter} (hf : f ∈ s.completed) : ¬ rem.Pending s.subs f := fun hp =>
      h.apart f hf (by rw [hrem]; exact hp)
    refine ⟨fun _ h => by cases h; exact hstep.isOf, h.connector, h.waiting, h.peer,
      fun k => (h.calls k).mono fun f opts hsub => ⟨opts, hsome hsub⟩,
      fun f hf c => hstep.deleting f c hf, fun f hf => ?_, fun f hf hp => ?_⟩
    · obtain ⟨⟨opts, hsub⟩, hlist⟩ := h.keeps f hf
      exact ⟨⟨opts, hsome hsub⟩, hstep.kept b f hlist (hpending hf)⟩
    · exact hpending hf (hstep.pending f hp)

theorem Inv.connect (h : Inv a b s) : Inv a b (s.connect order b) := by
  -- before the new session is connected there is nothing to keep
  have hwaiting (hwait : s.connector ≠ .connected) {t : Handover} (hcleaner : t.cleaner = s.cleaner)
      (hcalls : t.calls = s.calls) (hcompleted : t.completed = s.completed)
      (hconnector : ∀ rem, t.connector = .removing rem → ∃ id, rem.IsOf id)
      (hpeer : t.connector = .connected → t.peer = some b)
      (hnone : ∀ f c, s.router.subscription f c = none → t.router.subscription f c = none) :
      Inv a b t := by
    obtain ⟨hidle, hnil⟩ := h.waiting hwait
    refine ⟨fun rem hrem => h.cleaner rem (hcleaner ▸ hrem), hconnector,
      fun _ => ⟨fun k => by rw [hcalls, hidle], by rw [hcompleted, hnil]⟩, hpeer, fun k => ?_,
      fun f hf c => hnone f c (h.deleting f (by rwa [← hcleaner]) c), fun f hf => ?_,
      fun f hf => ?_⟩
    · rw [hcalls, hidle]
      exact .idle
    · rw [hcompleted, hnil] at hf
      cases hf
    · rw [hcompleted, hnil] at hf
      cases hf
  unfold Handover.connect
  split
  next clear hstart =>
    refine hwaiting (by simp [hstart]) rfl rfl rfl (fun rem hrem => ?_) (fun hcon => ?_) fun _ _ h => h
    · cases hpeer : s.peer with
      | none => simp [hpeer] at hrem
      | some id =>
        simp only [hpeer, Connector.removing.injEq] at hrem
        subst hrem
        split_ifs
        · exact ⟨id, .taken⟩
        · exact ⟨id, .done⟩
    · cases hpeer : s.peer <;> simp [hpeer] at hcon
  next hdone =>
    exact hwaiting (by simp [hdone]) rfl rfl rfl (fun _ h => (nomatch h)) (fun h => (nomatch h))
      fun _ _ h => h
  next rem _ hrem =>
    obtain ⟨id, hof⟩ := h.connector rem hrem
    have hstep := hof.stepped order s.router s.peer s.subs
    exact hwaiting (by simp [hrem]) rfl rfl rfl (fun rem' h => by cases h; exact ⟨id, hstep.isOf⟩)
      (fun h => (nomatch h)) fun f c hnone => hstep.none hnone
  next hsetting =>
    exact hwaiting (by simp [hsetting]) rfl rfl rfl (fun _ h => (nomatch h)) (fun _ => rfl)
      fun _ _ h => h
  next => exact h

theorem Inv.call (h : Inv a b s) (hcon : s.connector = .connected) {r' : DefaultRouter}
    {x : Subscriber} {k : ℕ} (hx : x.IsOf b r')
    (hsome : ∀ f opts, s.router.subscription f b.clientId = some (b, opts) →
      ∃ opts', r'.subscription f b.clientId = some (b, opts'))
    (hnone : ∀ f, s.cleaner.Deleting f → ∀ c, r'.subscription f c = none) :
    Inv a b { s with router := r', calls := update s.calls k x } := by
  refine ⟨h.cleaner, h.connector, fun hwait => absurd hcon hwait, h.peer, fun j => ?_, hnone,
    fun f hf => ?_, h.apart⟩
  · rcases eq_or_ne j k with rfl | hj
    · dsimp only
      rwa [update_self]
    · dsimp only
      rw [update_of_ne hj]
      exact (h.calls j).mono hsome
  · obtain ⟨⟨opts, hsub⟩, hlist⟩ := h.keeps f hf
    exact ⟨hsome f opts hsub, hlist⟩

/-- What is still to be cleaned up does not depend on the list of the new session. -/
theorem Inv.pending_iff (h : Inv a b s) (hne : a ≠ b) {subs : SessionSubs} {f : TopicFilter} :
    s.cleaner.Pending (update s.subs b subs) f ↔ s.cleaner.Pending s.subs f := by
  cases hc : s.cleaner with
  | start | checked => rfl
  | removing rem =>
    cases h.cleaner rem hc with
    | taken =>
      change f ∈ update s.subs b subs a ↔ f ∈ s.subs a
      rw [update_of_ne hne]
    | _ => rfl

theorem Inv.list (h : Inv a b s) (hne : a ≠ b) (hcon : s.connector = .connected) {k : ℕ}
    {f : TopicFilter} {opts' : SubscriptionOptions}
    (hsub : s.router.subscription f b.clientId = some (b, opts')) (opts : SubscriptionOptions)
    (ha : ¬ s.cleaner.Pending s.subs f) :
    Inv a b { s with
      subs := update s.subs b ((s.subs b).insert f opts)
      calls := update s.calls k .idle
      completed := f :: s.completed } := by
  refine ⟨h.cleaner, h.connector, fun hwait => absurd hcon hwait, h.peer, fun j => ?_, h.deleting,
    fun g hg => ?_, fun g hg hp => ?_⟩
  · dsimp only
    rcases eq_or_ne j k with rfl | hj
    · rw [update_self]
      exact .idle
    · rw [update_of_ne hj]
      exact h.calls j
  · dsimp only
    rw [update_self, Finmap.mem_insert]
    rcases List.mem_cons.1 hg with rfl | hg
    · exact ⟨⟨opts', hsub⟩, .inl rfl⟩
    · exact ⟨(h.keeps g hg).1, .inr (h.keeps g hg).2⟩
  · have hp' := (h.pending_iff hne).1 hp
    rcases List.mem_cons.1 hg with rfl | hg
    · exact ha hp'
    · exact h.apart g hg hp'

theorem Inv.advance (h : Inv a b s) (hne : a ≠ b) {k : ℕ} (ha : s.Apart (.advance k)) :
    Inv a b (s.advance b k) := by
  by_cases hcon : s.connector = .connected
  swap
  · rw [Handover.advance, (h.waiting hcon).1 k]
    exact h
  have hsame : ∀ f opts, s.router.subscription f b.clientId = some (b, opts) →
      ∃ opts', s.router.subscription f b.clientId = some (b, opts') := fun _ opts h => ⟨opts, h⟩
  rw [Apart] at ha
  unfold Handover.advance
  rcases hk : s.calls k with _ | ⟨f, opts⟩ | ⟨session, task, f, opts⟩ | ⟨session, f, opts⟩
  all_goals have hof := hk ▸ h.calls k
  · exact h
  · have hcall := h.call (k := k) hcon (.inserting f opts) hsame h.deleting
    simpa only [h.peer hcon] using hcall
  · cases hof with
    | inserting =>
      simp only [Task.next]
      cases Topic.fromStr f with
      | error e => exact h.call hcon .idle hsame h.deleting
      | ok topic => exact h.call hcon (.entering f opts) hsame h.deleting
    | entering =>
      rw [hk] at ha
      have hsub := subscription_insertRelation s.router f
      refine h.call hcon (@Subscriber.IsOf.listing b _ f opts opts ?_) (fun g o hg => ?_) fun g hg c => ?_
      · rw [hsub, if_pos ⟨rfl, rfl⟩]
      · rw [hsub]
        split_ifs
        · exact ⟨opts, rfl⟩
        · exact ⟨o, hg⟩
      · rw [hsub, if_neg]
        · exact h.deleting g hg c
        · rintro ⟨rfl, -⟩
          exact ha hg
  · cases hof with
    | @listing _ _ opts' hsub =>
      rw [hk] at ha
      exact h.list hne hcon hsub opts ha

theorem Inv.exec (h : Inv a b s) (hne : a ≠ b) {x : Action} (ha : s.Apart x) :
    Inv a b (s.exec order a b x) := by
  cases x with
  | clean => exact h.clean hne
  | connect => exact h.connect
  | advance k => exact h.advance hne ha
  | subscribe k f opts =>
    rw [Handover.exec]
    split
    · exact h.call ‹_› (.start f opts) (fun _ o hsub => ⟨o, hsub⟩) h.deleting
    · exact h

/-- If the new session waits with each filter until it has been cleaned up, it keeps all of them. -/
theorem successor_kept (order : Walk TopicFilter SubscriptionOptions) {a b : Id} (hne : a ≠ b)
    (router : DefaultRouter) (subs : Id → SessionSubs) (clearSubscriptions : Bool)
    (actions : List Action)
    (ha : Along (exec order a b) Apart (init a router subs clearSubscriptions) actions) :
    (run order a b (init a router subs clearSubscriptions) actions).Keeps b :=
  (ha.invariant (fun _ _ ha hs => Inv.exec hs hne ha) (inv_init a b router subs _)).keeps

/-- The new session subscribes to another filter while the clean-up is under way. -/
theorem successor_kept_other :
    let a := Id.ofClient 1 "x" 0
    let b := Id.ofClient 1 "x" 1
    let subs := Function.update (fun _ => ∅) a (Finmap.singleton "t" default)
    (run Walk.sorted a b (init a (DefaultRouter.run {} [.add "t" a default]) subs false)
      [.clean, .clean, .clean, .connect, .connect, .subscribe 0 "u" default, .advance 0, .advance 0,
        .advance 0, .advance 0, .clean, .clean, .clean, .clean, .clean]).Keeps b := by
  intro a b subs
  exact successor_kept Walk.sorted (by decide) _ _ _ _ (by decide +kernel)

/-- The new session subscribes to a filter that is still to be cleaned up: when all has finished, it is
in the router and not on the list of the session. -/
theorem struck_off :
    let a := Id.ofClient 1 "x" 0
    let b := Id.ofClient 1 "x" 1
    let subs := Function.update (fun _ => ∅) a (Finmap.singleton "t" default)
    let s := run Walk.sorted a b (init a (DefaultRouter.run {} [.add "t" a default]) subs false)
      [.clean, .clean, .clean, .connect, .connect, .subscribe 0 "t" default, .advance 0, .advance 0,
        .advance 0, .advance 0, .clean, .clean, .clean]
    s.completed = ["t"] ∧ s.cleaner = .removing .done ∧ s.connector = .connected ∧
      s.calls 0 = .idle ∧ s.router.subscription "t" "x" = some (b, default) ∧ "t" ∉ s.subs b ∧
        ¬ s.Keeps b := by
  intro a b subs s
  have hcompleted : s.completed = ["t"] := by decide +kernel
  have hlist : "t" ∉ s.subs b := by
    rw [← Finmap.lookup_eq_none]
    decide +kernel
  refine ⟨hcompleted, by decide +kernel, by decide +kernel, by decide +kernel, by decide +kernel, hlist,
    fun h => ?_⟩
  exact hlist (h "t" (by rw [hcompleted]; exact List.mem_singleton_self _)).2

end Handover

end FerroMq
