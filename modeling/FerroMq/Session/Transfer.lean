import FerroMq.Session.Subscribe

/-!
# Resuming a session

A resumed session gets its subscriptions in a message `SessionStateTransfer`, before, between or after the
packets of the client.  `transfer_session_state` overwrites what the client has asked for in the meantime
(`resumed_late`); `resumed_iff` says when the router and the session end up with what the client means.
-/

namespace FerroMq

open Lib DefaultRouter List
open Function (update_self update_of_ne)

/-- A packet of the client, with the answers of the hooks.  A packet with several filters stands for
several packets with one. -/
inductive ClientPacket
  | subscribe (sub : Subscribe) (adjusted : Option TopicFilter) (acl : Option SubscribeReturn)
  | unsubscribe (topicFilter : TopicFilter) (adjusted : Option TopicFilter)

/-- The packet asks for a subscription with the share group, or outside share groups. -/
def ClientPacket.AsksFor (group : Option SharedGroup) : ClientPacket → Prop
  | .subscribe sub _ _ => sub.opts.sharedGroup = group
  | .unsubscribe _ _ => False

inductive SessionEvent
  | packet (p : ClientPacket)
  /-- `Message::SessionStateTransfer(offline_info, clear_subscriptions)` -/
  | transfer (subscriptions : List (TopicFilter × SubscriptionOptions)) (clearSubscriptions : Bool)

namespace SessionStore

/-- What `transfer_session_state` does with the subscriptions. -/
def transferSessionState (s : SessionStore) (id : Id) (clearSubscriptions : Bool)
    (subscriptions : List (TopicFilter × SubscriptionOptions)) : SessionStore :=
  if clearSubscriptions then s
  else
    { s with
      router := subscriptions.foldl (fun r x => (r.add x.1 id x.2).2) s.router
      subs := subscriptions.foldl (fun m x => m.insert x.1 x.2) s.subs }

variable (cfg : ListenerConfig) (id : Id)

def receive (s : SessionStore) : ClientPacket → SessionStore
  | .subscribe sub adjusted acl => (s.subscribe cfg id sub adjusted acl).2
  | .unsubscribe topicFilter adjusted => (s.unsubscribe id topicFilter adjusted).2

def process (s : SessionStore) : SessionEvent → SessionStore
  | .packet p => s.receive cfg id p
  | .transfer subscriptions clearSubscriptions =>
    s.transferSessionState id clearSubscriptions subscriptions

def run (s : SessionStore) (events : List SessionEvent) : SessionStore :=
  events.foldl (process cfg id) s

/-- The router and the list of the session hold the subscriptions `m`. -/
structure Agrees (s : SessionStore) (m : TopicFilter → Option SubscriptionOptions) : Prop where
  router : ∀ f, s.router.subscription f id.clientId = (m f).map fun opts => (id, opts)
  subs : ∀ f, s.subs.lookup f = m f

/-! ## Packets -/

/-- As `Agrees`, for the router only at the filters `P`. -/
structure AgreesOn (P : TopicFilter → Prop) (s : SessionStore)
    (m : TopicFilter → Option SubscriptionOptions) : Prop where
  router : ∀ f, P f → s.router.subscription f id.clientId = (m f).map fun opts => (id, opts)
  subs : ∀ f, s.subs.lookup f = m f

section Packets

variable {cfg id} {s : SessionStore}

theorem subscription_add_ok {r r' : DefaultRouter} {f : TopicFilter} {opts : SubscriptionOptions}
    (h : r.add f id opts = (.ok (), r')) (g : TopicFilter) (c : ClientId) :
    r'.subscription g c = if g = f ∧ c = id.clientId then some (id, opts) else r.subscription g c := by
  rw [DefaultRouter.add] at h
  cases ht : Topic.fromStr f with
  | error e => simp [ht] at h
  | ok topic =>
    rw [ht] at h
    cases h
    exact subscription_insertRelation _ f g id opts c

theorem add_error {r r' : DefaultRouter} {f : TopicFilter} {opts : SubscriptionOptions}
    {e : TopicError} (h : r.add f id opts = (.error e, r')) : r' = r := by
  rw [DefaultRouter.add] at h
  cases ht : Topic.fromStr f with
  | error e => rw [ht] at h; cases h; rfl
  | ok topic => rw [ht] at h; cases h

/-- What was granted is a write. -/
def Writes (id : Id) (s s' : SessionStore) : Prop :=
  ∃ l, s'.log = s.log ++ l ∧ ∀ P m, AgreesOn id P s m → AgreesOn id P s' (writes m l)

theorem writes_refl (id : Id) (s : SessionStore) : Writes id s s :=
  ⟨[], by simp, fun _ _ h => h⟩

theorem Writes.trans {s' s'' : SessionStore} (h : Writes id s s') (h' : Writes id s' s'') :
    Writes id s s'' := by
  obtain ⟨l, hlog, hagrees⟩ := h
  obtain ⟨l', hlog', hagrees'⟩ := h'
  refine ⟨l ++ l', by rw [hlog', hlog, append_assoc], fun P m hm => ?_⟩
  rw [writes_append]
  exact hagrees' P _ (hagrees P m hm)

/-- The client has been granted one write. -/
def Grants (id : Id) (s : SessionStore) (w : TopicFilter × Option SubscriptionOptions)
    (s' : SessionStore) : Prop :=
  s'.log = s.log ++ [w] ∧
    ∀ P m, AgreesOn id P s m → AgreesOn id P s' (Function.update m w.1 w.2)

theorem Grants.writes {s' : SessionStore} {w : TopicFilter × Option SubscriptionOptions}
    (h : Grants id s w s') : Writes id s s' :=
  ⟨[w], h⟩

theorem entrySubscribe_cases (s : SessionStore) (sub : Subscribe) :
    (s.entrySubscribe id sub).2 = s ∨
      Grants id s (sub.topicFilter, some sub.opts) (s.entrySubscribe id sub).2 := by
  rw [entrySubscribe]
  rcases hadd : s.router.add sub.topicFilter id sub.opts with ⟨_ | ⟨⟩, r'⟩
  · rw [add_error hadd]
    exact .inl rfl
  · refine .inr ⟨rfl, fun P m hm => ⟨fun f hf => ?_, fun f => ?_⟩⟩
    · change r'.subscription f id.clientId = _
      rw [subscription_add_ok hadd]
      rcases eq_or_ne f sub.topicFilter with rfl | hne
      · rw [if_pos ⟨rfl, rfl⟩, update_self, Option.map_some]
      · rw [if_neg fun h => hne h.1, update_of_ne hne]
        exact hm.router f hf
    · change (s.subs.insert sub.topicFilter sub.opts).lookup f = _
      rw [Map.lookup_insert']
      split_ifs with hf
      · rw [hf, update_self]
      · rw [update_of_ne hf]
        exact hm.subs f

theorem grants_entryUnsubscribe (s : SessionStore) (topicFilter : TopicFilter) :
    Grants id s (topicFilter, none) (s.entryUnsubscribe id topicFilter).2 := by
  refine ⟨rfl, fun P m hm => ⟨fun f hf => ?_, fun f => ?_⟩⟩
  · change (s.router.remove topicFilter id).2.subscription f id.clientId = _
    rw [subscription_remove]
    rcases eq_or_ne f topicFilter with rfl | hne
    · -- what is stored has the id of the session, so that it is removed
      rw [update_self]
      split_ifs with henable
      · rfl
      · rw [hm.router f hf]
        cases hopts : m f with
        | none => rfl
        | some opts =>
          refine absurd ⟨rfl, rfl, removeEnable_iff.2 ⟨opts, ?_⟩⟩ henable
          rw [hm.router f hf, hopts, Option.map_some]
    · rw [if_neg fun h => hne h.1, update_of_ne hne]
      exact hm.router f hf
  · change (s.subs.erase topicFilter).lookup f = _
    rw [Map.lookup_erase']
    split_ifs with hf
    · rw [hf, update_self]
    · rw [update_of_ne hf]
      exact hm.subs f

/-- A packet is refused, or it is granted one write: of options with the share group that it asks for,
or of nothing. -/
theorem receive_cases (s : SessionStore) (p : ClientPacket) :
    s.receive cfg id p = s ∨
      ∃ f value, (∀ opts, value = some opts → p.AsksFor opts.sharedGroup) ∧
        Grants id s (f, value) (s.receive cfg id p) := by
  cases p with
  | unsubscribe topicFilter adjusted =>
    exact .inr ⟨_, none, nofun, grants_entryUnsubscribe s _⟩
  | subscribe sub adjusted acl =>
    have hentry (f : TopicFilter) (opts : SubscriptionOptions)
        (h : sub.opts.sharedGroup = opts.sharedGroup) :
        (s.entrySubscribe id ⟨f, opts⟩).2 = s ∨
          ∃ f' value, (∀ opts, value = some opts → sub.opts.sharedGroup = opts.sharedGroup) ∧
            Grants id s (f', value) (s.entrySubscribe id ⟨f, opts⟩).2 :=
      (entrySubscribe_cases s ⟨f, opts⟩).imp_right fun hgrants =>
        ⟨f, some opts, fun _ hopts => h.trans (congrArg _ (Option.some_inj.1 hopts)), hgrants⟩
    rw [receive, subscribe]
    cases s.checkLimits cfg id sub with
    | error e => exact .inl rfl
    | ok =>
      rcases acl with _ | aclResult
      · exact hentry _ _ (by simp)
      · dsimp only
        cases aclResult.success with
        | none => exact .inl rfl
        | some qos => exact hentry _ _ (by simp)

theorem writes_receive (s : SessionStore) (p : ClientPacket) : Writes id s (s.receive cfg id p) := by
  rcases receive_cases s p with h | ⟨f, value, -, hgrants⟩
  · rw [h]
    exact writes_refl id s
  · exact hgrants.writes

theorem writes_run (cfg : ListenerConfig) (id : Id) (s : SessionStore) (ps : List ClientPacket) :
    Writes id s (s.run cfg id (ps.map .packet)) := by
  induction ps generalizing s with
  | nil => exact writes_refl id s
  | cons p ps ih => exact (writes_receive s p).trans (ih _)

end Packets

/-! ## The transfer -/

section Transfer

variable {cfg id} {carried : List (TopicFilter × SubscriptionOptions)}

theorem lookup_of_notMem {f : TopicFilter} (h : f ∉ carried.map Prod.fst) :
    carried.lookup f = none := by
  rw [lookup_eq_none_iff]
  intro x hx
  rw [bne_iff_ne]
  rintro rfl
  exact h (mem_map_of_mem hx)

theorem subscription_foldl_add (hnodup : (carried.map Prod.fst).Nodup)
    (hparsed : ∀ x ∈ carried, ∃ ks, IsFilter x.1 ks) (r : DefaultRouter) (f : TopicFilter) :
    (carried.foldl (fun r x => (r.add x.1 id x.2).2) r).subscription f id.clientId =
      ((carried.lookup f).map fun opts => (id, opts)).or (r.subscription f id.clientId) := by
  induction carried generalizing r with
  | nil => rfl
  | cons x carried ih =>
    obtain ⟨g, opts⟩ := x
    rw [map_cons, nodup_cons] at hnodup
    obtain ⟨ks, topic, htopic, -⟩ := hparsed (g, opts) (by simp)
    have hadd : r.add g id opts = (.ok (), (r.add g id opts).2) := by
      rw [DefaultRouter.add, htopic]
    rw [foldl_cons, ih hnodup.2 fun x hx => hparsed x (mem_cons_of_mem _ hx),
      subscription_add_ok hadd, lookup_cons]
    rcases eq_or_ne f g with rfl | hne
    · simp [lookup_of_notMem hnodup.1]
    · simp [hne, beq_false_of_ne hne]

theorem lookup_foldl_insert (hnodup : (carried.map Prod.fst).Nodup) (m : SessionSubs)
    (f : TopicFilter) :
    (carried.foldl (fun m x => m.insert x.1 x.2) m).lookup f = (carried.lookup f).or (m.lookup f) := by
  induction carried generalizing m with
  | nil => rfl
  | cons x carried ih =>
    obtain ⟨g, opts⟩ := x
    rw [map_cons, nodup_cons] at hnodup
    rw [foldl_cons, ih hnodup.2, Map.lookup_insert', lookup_cons]
    rcases eq_or_ne f g with rfl | hne
    · simp [lookup_of_notMem hnodup.1]
    · simp [hne, beq_false_of_ne hne]

theorem agrees_transfer (hnodup : (carried.map Prod.fst).Nodup)
    (hparsed : ∀ x ∈ carried, ∃ ks, IsFilter x.1 ks) {s : SessionStore}
    {m : TopicFilter → Option SubscriptionOptions}
    (h : AgreesOn id (fun f => carried.lookup f = none) s m) :
    AgreesOn id (fun _ => True) (s.transferSessionState id false carried)
      fun f => (carried.lookup f).or (m f) := by
  refine ⟨fun f _ => ?_, fun f => ?_⟩
  · refine (subscription_foldl_add hnodup hparsed s.router f).trans ?_
    cases hf : carried.lookup f with
    | none => exact h.router f hf
    | some opts => rfl
  · refine (lookup_foldl_insert hnodup s.subs f).trans ?_
    rw [h.subs]

/-- A resumed session ends up with what the client means if and only if every filter that is carried
over and that no packet after the transfer is about has its carried-over options by what the client
did before the transfer. -/
theorem resumed_iff (cfg : ListenerConfig) {a b : Id}
    (hnodup : (carried.map Prod.fst).Nodup) (hparsed : ∀ x ∈ carried, ∃ ks, IsFilter x.1 ks)
    {router : DefaultRouter}
    (hrouter : ∀ f, router.subscription f b.clientId =
      (carried.lookup f).map fun opts => (a, opts)) (before after : List ClientPacket) :
    let view := fun f => carried.lookup f
    let s₁ := run cfg b { router } (before.map .packet)
    let s := run cfg b { router } (before.map .packet ++ .transfer carried false :: after.map .packet)
    s.Agrees b (writes view s.log) ↔
      ∀ f opts, carried.lookup f = some opts → (∀ w ∈ s.log.drop s₁.log.length, w.1 ≠ f) →
        writes view s₁.log f = some opts := by
  intro view s₁ s
  have hinit : AgreesOn b (fun f => carried.lookup f = none) { router } fun _ => none :=
    ⟨fun f hf => by rw [hrouter, hf]; rfl, fun f => Finmap.lookup_empty f⟩
  obtain ⟨l, hl, hagrees⟩ := writes_run cfg b { router } before
  rw [List.nil_append] at hl
  obtain ⟨l', hl', hagrees'⟩ := writes_run cfg b
    (s₁.transferSessionState b false carried) after
  have hfinal := hagrees' _ _ (agrees_transfer hnodup hparsed (hagrees _ _ hinit))
  have hs : s = run cfg b (s₁.transferSessionState b false carried) (after.map .packet) :=
    List.foldl_append
  rw [← hs] at hl' hfinal
  have hlog : s.log = s₁.log ++ l' := hl'
  rw [hlog, List.drop_left, writes_append]
  rw [show s₁.log = l from hl]
  constructor
  · intro h f opts hf huntouched
    have heq := (h.subs f).symm.trans (hfinal.subs f)
    rw [writes_of_forall_ne huntouched, writes_of_forall_ne huntouched, hf] at heq
    exact heq
  · intro h
    have hpoint (f : TopicFilter) : writes (fun f => (carried.lookup f).or (writes (fun _ => none) l f))
        l' f = writes (writes view l) l' f := by
      by_cases htouched : ∃ w ∈ l', w.1 = f
      · exact writes_of_exists htouched
      · refine writes_congr ?_
        cases hf : carried.lookup f with
        | none => exact writes_congr hf.symm
        | some opts => exact (h f opts hf fun w hw heq => htouched ⟨w, hw, heq⟩).symm
    exact ⟨fun f => by rw [hfinal.router f trivial, hpoint],
      fun f => by rw [hfinal.subs f, hpoint]⟩

/-- The transfer comes first, and the client unsubscribes. -/
theorem resumed_iff_unsubscribe :
    let a := Id.ofClient 1 "x" 0
    let b := Id.ofClient 1 "x" 1
    let carried : List (TopicFilter × SubscriptionOptions) := [("t", default)]
    let router := DefaultRouter.run {} [.add "t" a default]
    let view := fun f => carried.lookup f
    let cfg : ListenerConfig := ⟨0, 0, .exactlyOnce⟩
    let s₁ := run cfg b { router } []
    let s := run cfg b { router } [.transfer carried false, .packet (.unsubscribe "t" none)]
    s.Agrees b (writes view s.log) ↔
      ∀ f opts, carried.lookup f = some opts → (∀ w ∈ s.log.drop s₁.log.length, w.1 ≠ f) →
        writes view s₁.log f = some opts := by
  intro a b carried router view cfg s₁ s
  refine resumed_iff cfg (a := a) (by decide) ?_ (fun f => ?_) [] [.unsubscribe "t" none]
  · intro x hx
    obtain rfl := List.mem_singleton.1 hx
    exact ⟨[.normal "t"], ⟨[.normal "t"]⟩, by decide +kernel, rfl⟩
  · have hadd : (DefaultRouter.add {} "t" a default).1 = .ok () := by decide +kernel
    have hsub := subscription_add_ok (r := {}) (Prod.ext hadd rfl) f b.clientId
    refine hsub.trans ?_
    rcases eq_or_ne f "t" with rfl | hne
    · rfl
    · simp [hne, carried, subscription]

/-- The client raises the QoS of a subscription before the transfer is taken: the session ends with
the carried-over QoS. -/
theorem resumed_late :
    let a := Id.ofClient 1 "x" 0
    let b := Id.ofClient 1 "x" 1
    let opts : SubscriptionOptions := .v3 ⟨.exactlyOnce, none, none⟩
    let carried : List (TopicFilter × SubscriptionOptions) := [("t", default)]
    let s := run ⟨0, 0, .exactlyOnce⟩ b { router := DefaultRouter.run {} [.add "t" a default] }
      [.packet (.subscribe ⟨"t", opts⟩ none none), .transfer carried false]
    s.log = [("t", some opts)] ∧ s.router.subscription "t" "x" = some (b, default) ∧
      s.subs.lookup "t" = some default ∧ ¬ s.Agrees b (writes (fun f => carried.lookup f) s.log) := by
  intro a b opts carried s
  have hlog : s.log = [("t", some opts)] := by decide +kernel
  have hsubs : s.subs.lookup "t" = some default := by decide +kernel
  refine ⟨hlog, by decide +kernel, hsubs, fun h => ?_⟩
  have heq := h.subs "t"
  rw [hsubs, hlog] at heq
  exact absurd heq (by decide)

end Transfer

end SessionStore

end FerroMq
