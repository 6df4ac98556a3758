import FerroMq.Session.Shares

/-!
# Limited subscriptions

For `$limit/n/f` and `$exclusive/f`, `_subscribe` reads how many clients have subscribed to `f`, waits for the
hooks and then adds the client; and a filter without subscribers is not limited at all (`limit_exceeded`).  The
limit is kept in exactly the runs in which the check, made again, would still allow the client (`bounded_iff`).
-/

namespace FerroMq

open Lib Codec

/-! ## Subscribers of a filter -/

namespace DefaultRouter

def clients (self : DefaultRouter) (f : TopicFilter) : Finset ClientId :=
  ((self.relations.lookup f).getD ∅).keys

theorem clients_insertRelation (r : DefaultRouter) (f f' : TopicFilter) (id : Id)
    (opts : SubscriptionOptions) :
    (r.insertRelation f' id opts).clients f =
      if f' = f then insert id.clientId (r.clients f) else r.clients f := by
  unfold clients insertRelation
  rw [Map.lookup_insert']
  split_ifs with hf hf' hf'
  · rw [Option.getD_some, Map.keys_insert, hf]
  · exact absurd hf.symm hf'
  · exact absurd hf'.symm hf
  · rfl

theorem clients_add (r : DefaultRouter) (f f' : TopicFilter) (id : Id) (opts : SubscriptionOptions) :
    (r.add f' id opts).2.clients f =
      if f' = f ∧ (Topic.fromStr f).isOk = true then insert id.clientId (r.clients f)
      else r.clients f := by
  by_cases hf : f' = f
  · subst hf
    rw [add]
    cases Topic.fromStr f' with
    | error e => exact (if_neg fun h => Bool.false_ne_true h.2).symm
    | ok topic =>
      have hclients := clients_insertRelation (r.insertTopic topic) f' f' id opts
      rw [if_pos rfl] at hclients
      exact hclients.trans (if_pos ⟨rfl, rfl⟩).symm
  · rw [if_neg fun h => hf h.1, add]
    cases Topic.fromStr f' with
    | error e => rfl
    | ok topic => exact (clients_insertRelation (r.insertTopic topic) f f' id opts).trans (if_neg hf)

end DefaultRouter

/-! ## Requests -/

namespace SessionStore

def complete (s : SessionStore) (cfg : ListenerConfig) (id : Id) (sub : Subscribe)
    (adjusted : Option TopicFilter) (acl : Option SubscribeReturn) :
    Except SubscribeError SubscribeReturn × SessionStore :=
  let opts := sub.opts.setQos (sub.opts.qos.lessValue cfg.maxQosAllowed)
  let topicFilter := adjusted.getD sub.topicFilter
  match acl with
  | some aclResult =>
    match aclResult.success with
    | some qos => s.entrySubscribe id ⟨topicFilter, opts.setQos (opts.qos.lessValue qos)⟩
    | none => (.ok aclResult, s)
  | none => s.entrySubscribe id ⟨topicFilter, opts⟩

theorem subscribe_eq_complete (s : SessionStore) (cfg : ListenerConfig) (id : Id) (sub : Subscribe)
    (adjusted : Option TopicFilter) (acl : Option SubscribeReturn) :
    s.subscribe cfg id sub adjusted acl =
      match s.checkLimits cfg id sub with
      | .error e => (.error e, s)
      | .ok () => s.complete cfg id sub adjusted acl := rfl

/-- The request ends with the client on the filter. -/
def Inserts (f : TopicFilter) (sub : Subscribe) (adjusted : Option TopicFilter)
    (acl : Option SubscribeReturn) : Prop :=
  adjusted.getD sub.topicFilter = f ∧ (Topic.fromStr f).isOk = true ∧
    acl.all (fun aclResult => aclResult.success.isSome) = true

instance (f : TopicFilter) (sub : Subscribe) (adjusted : Option TopicFilter)
    (acl : Option SubscribeReturn) : Decidable (Inserts f sub adjusted acl) :=
  inferInstanceAs (Decidable (_ ∧ _ ∧ _))

variable {s : SessionStore} {f : TopicFilter} {id : Id} {n : ℕ}

theorem router_entrySubscribe (s : SessionStore) (id : Id) (sub : Subscribe) :
    (s.entrySubscribe id sub).2.router = (s.router.add sub.topicFilter id sub.opts).2 := by
  unfold entrySubscribe
  split <;> rename_i h <;> rw [h]

theorem clients_complete (s : SessionStore) (f : TopicFilter) (cfg : ListenerConfig) (id : Id)
    (sub : Subscribe) (adjusted : Option TopicFilter) (acl : Option SubscribeReturn) :
    (s.complete cfg id sub adjusted acl).2.router.clients f =
      if Inserts f sub adjusted acl then insert id.clientId (s.router.clients f)
      else s.router.clients f := by
  have hentry (opts : SubscriptionOptions) :
      (s.entrySubscribe id ⟨adjusted.getD sub.topicFilter, opts⟩).2.router.clients f =
        if adjusted.getD sub.topicFilter = f ∧ (Topic.fromStr f).isOk = true then
          insert id.clientId (s.router.clients f)
        else s.router.clients f := by
    rw [router_entrySubscribe, DefaultRouter.clients_add]
  unfold complete
  cases acl with
  | none => simp [hentry, Inserts]
  | some aclResult =>
    cases hsuccess : aclResult.success with
    | none => simp [hsuccess, Inserts]
    | some qos => simp [hsuccess, hentry, Inserts]

/-- The check looks for an entry of the filter before it looks at the limit. -/
theorem limited_eq_true_iff :
    (s.limited id f n).1 = true ↔
      s.router.relations.lookup f = none ∨ id.clientId ∈ s.router.clients f ∨
        (s.router.clients f).card < n := by
  unfold limited DefaultRouter.clients
  cases s.router.relations.lookup f with
  | none => simp
  | some rels =>
    rw [Option.getD_some, Finmap.mem_keys]
    dsimp only
    split_ifs with hmem
    all_goals simp [hmem]

/-- One more client is within the limit exactly if the check allows it and the limit is not zero. -/
theorem card_insert_le_iff (h : (s.router.clients f).card ≤ n) :
    (insert id.clientId (s.router.clients f)).card ≤ n ↔ (s.limited id f n).1 = true ∧ 0 < n := by
  rw [limited_eq_true_iff]
  by_cases hmem : id.clientId ∈ s.router.clients f
  · have hpos : 0 < (s.router.clients f).card := Finset.card_pos.2 ⟨_, hmem⟩
    rw [Finset.insert_eq_of_mem hmem]
    exact iff_of_true h ⟨.inr (.inl hmem), hpos.trans_le h⟩
  · rw [Finset.card_insert_of_notMem hmem, Nat.succ_le_iff]
    refine ⟨fun hlt => ⟨.inr (.inr hlt), Nat.zero_lt_of_lt hlt⟩, ?_⟩
    rintro ⟨hnone | hmem' | hlt, hpos⟩
    · have hclients : s.router.clients f = ∅ := by rw [DefaultRouter.clients, hnone]; rfl
      rwa [hclients]
    · exact absurd hmem' hmem
    · exact hlt

end SessionStore

/-! ## Runs -/

/-- The router, the lists of the sessions, and the requests that have passed their checks. -/
structure Subscribing where
  router : DefaultRouter := {}
  subs : Map Id SessionSubs := ∅
  admitted : List (ListenerConfig × Id × Subscribe) := []

namespace Subscribing

inductive Step
  /-- A request comes in and is checked. -/
  | check (cfg : ListenerConfig) (id : Id) (sub : Subscribe)
  /-- A request that has passed is completed, with the answers of the hooks. -/
  | complete (i : ℕ) (adjusted : Option TopicFilter) (acl : Option SubscribeReturn)

def store (s : Subscribing) (id : Id) : SessionStore :=
  { router := s.router, subs := (s.subs.lookup id).getD ∅ }

def step (s : Subscribing) : Step → Subscribing
  | .check cfg id sub =>
    match (s.store id).checkLimits cfg id sub with
    | .ok () => { s with admitted := s.admitted ++ [(cfg, id, sub)] }
    | .error _ => s
  | .complete i adjusted acl =>
    match s.admitted[i]? with
    | some (cfg, id, sub) =>
      let store := ((s.store id).complete cfg id sub adjusted acl).2
      { router := store.router
        subs := s.subs.insert id store.subs
        admitted := s.admitted.eraseIdx i }
    | none => s

def run (s : Subscribing) (l : List Step) : Subscribing := l.foldl step s

/-- There are never more than `n` clients on the filter. -/
def Bounded (f : TopicFilter) (n : ℕ) (s : Subscribing) (l : List Step) : Prop :=
  ∀ pre, pre <+: l → ((s.run pre).router.clients f).card ≤ n

/-- The check would still allow the client when it is added, and the limit is not zero. -/
def StillAllowed (f : TopicFilter) (n : ℕ) (s : Subscribing) : Step → Prop
  | .check .. => True
  | .complete i adjusted acl =>
    match s.admitted[i]? with
    | some (_, id, sub) =>
      SessionStore.Inserts f sub adjusted acl → ((s.store id).limited id f n).1 = true ∧ 0 < n
    | none => True

def Vacant (f : TopicFilter) : Type := { s : Subscribing // s.router.clients f = ∅ }

section Steps

variable {f : TopicFilter} {n : ℕ}

theorem router_check (s : Subscribing) (cfg : ListenerConfig) (id : Id) (sub : Subscribe) :
    (s.step (.check cfg id sub)).router = s.router := by
  rw [step]
  split <;> rfl

theorem card_step_le_iff (s : Subscribing) (a : Step) (h : (s.router.clients f).card ≤ n) :
    ((s.step a).router.clients f).card ≤ n ↔ StillAllowed f n s a := by
  cases a with
  | check cfg id sub =>
    rw [router_check]
    exact iff_of_true h trivial
  | complete i adjusted acl =>
    rw [StillAllowed, step]
    rcases s.admitted[i]? with _ | ⟨cfg, id, sub⟩
    · exact iff_of_true h trivial
    dsimp only
    rw [SessionStore.clients_complete]
    split_ifs with hinserts
    · rw [imp_iff_right hinserts]
      exact SessionStore.card_insert_le_iff h
    · exact iff_of_true h fun hinserts' => absurd hinserts' hinserts

end Steps

/-- The limit of a filter is kept exactly if every client is still allowed when it is added. -/
theorem bounded_iff (f : TopicFilter) (n : ℕ) (s : Vacant f) (l : List Step) :
    Bounded f n s.1 l ↔ Along step (StillAllowed f n) s.1 l := by
  have hempty : (s.1.router.clients f).card ≤ n := by
    rw [s.2]
    exact Nat.zero_le n
  exact forall_prefix_iff_along_of_step (P := fun s : Subscribing => (s.router.clients f).card ≤ n)
    (fun s a h => card_step_le_iff s a h) hempty l

/-- Two clients are on a filter that both have asked to be limited to one, because both checks are made
before the first one is added; and one is on a filter with the limit zero. -/
theorem limit_exceeded :
    let cfg : ListenerConfig := ⟨0, 0, .exactlyOnce⟩
    let x := Id.ofClient 1 "x" 0
    let y := Id.ofClient 1 "y" 0
    let one : Subscribe := ⟨"a", .v3 { qos := .atMostOnce, sharedGroup := none, limitSubs := some 1 }⟩
    let zero : Subscribe := ⟨"a", .v3 { qos := .atMostOnce, sharedGroup := none, limitSubs := some 0 }⟩
    let racing : List Step :=
      [.check cfg x one, .check cfg y one, .complete 0 none none, .complete 0 none none]
    Subscribe.fromV3 "$limit/1/a" .atMostOnce true true = .ok one ∧
    Subscribe.fromV3 "$exclusive/a" .atMostOnce true true = .ok one ∧
    Subscribe.fromV3 "$limit/0/a" .atMostOnce true true = .ok zero ∧
    (run {} racing).router.clients "a" = {"x", "y"} ∧ ¬ Bounded "a" 1 {} racing ∧
    ¬ Bounded "a" 0 {} [.check cfg x zero, .complete 0 none none] := by
  intro cfg x y one zero racing
  have hboth : (run {} racing).router.clients "a" = {"x", "y"} := by decide +kernel
  have hracing : ¬ Bounded "a" 1 {} racing :=
    fun h => absurd (h racing List.prefix_rfl) (by decide +kernel)
  have hzero : ¬ Bounded "a" 0 {} [.check cfg x zero, .complete 0 none none] :=
    fun h => absurd (h _ List.prefix_rfl) (by decide +kernel)
  exact ⟨by decide +kernel, by decide +kernel, by decide +kernel, hboth, hracing, hzero⟩

end Subscribing

end FerroMq
