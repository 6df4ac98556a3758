import FerroMq.Lib.History
import FerroMq.Router.Types

/-!
# The router of one node

`DefaultRouter::add` and `DefaultRouter::remove`, made of sections that each run under one lock.  `Consistent`
says how the parts of the router belong together, and `Records` which subscriptions are there after a sequence
of calls.
-/

namespace FerroMq

open Lib Option Finmap

abbrev Subscribers := Map ClientId (Id × SubscriptionOptions)

abbrev Relations := Map TopicFilter Subscribers

structure DefaultRouter where
  topics : TopicTree Unit := Trie.empty
  topicsCount : Counter := {}
  relations : Relations := ∅
  relationsCount : Counter := {}

namespace DefaultRouter

/-! ## Sections -/

def insertTopic (self : DefaultRouter) (topic : Topic) : DefaultRouter :=
  { self with topics := (self.topics.insert topic ()).1 }

def insertRelation (self : DefaultRouter) (topicFilter : TopicFilter) (id : Id)
    (opts : SubscriptionOptions) : DefaultRouter :=
  let rels := (self.relations.lookup topicFilter).getD ∅
  let old := rels.lookup id.clientId
  { self with
    topicsCount := if (self.relations.lookup topicFilter).isNone then self.topicsCount.inc
      else self.topicsCount
    relations := self.relations.insert topicFilter (rels.insert id.clientId (id, opts))
    relationsCount := if old.isNone then self.relationsCount.inc else self.relationsCount }

def removeEnable (self : DefaultRouter) (topicFilter : TopicFilter) (id : Id) : Bool :=
  match self.relations.lookup topicFilter with
  | some rels =>
    match rels.lookup id.clientId with
    | some (sId, _) => sId = id
    | none => false
  | none => false

/-- Take the subscriber out of the entry of the filter if it has this id.  The answer says whether
the entry is empty then, and is missing if nothing was removed. -/
def removeSubscriber (self : DefaultRouter) (topicFilter : TopicFilter) (id : Id) :
    Option Bool × DefaultRouter :=
  if self.removeEnable topicFilter id then
    let rels := ((self.relations.lookup topicFilter).getD ∅).erase id.clientId
    (some (Map.isEmpty rels),
      { self with
        relations := self.relations.insert topicFilter rels
        relationsCount := self.relationsCount.dec })
  else (none, self)

def removeRelation (self : DefaultRouter) (topicFilter : TopicFilter) : DefaultRouter :=
  if (self.relations.lookup topicFilter).isSome then
    { self with
      relations := self.relations.erase topicFilter
      topicsCount := self.topicsCount.dec }
  else self

def removeTopic (self : DefaultRouter) (topic : Topic) : DefaultRouter :=
  { self with topics := (self.topics.remove topic ()).1 }

/-! ## Calls -/

def add (self : DefaultRouter) (topicFilter : TopicFilter) (id : Id) (opts : SubscriptionOptions) :
    Except TopicError Unit × DefaultRouter :=
  match Topic.fromStr topicFilter with
  | .ok topic => (.ok (), (self.insertTopic topic).insertRelation topicFilter id opts)
  | .error e => (.error e, self)

def remove (self : DefaultRouter) (topicFilter : TopicFilter) (id : Id) :
    Except TopicError Bool × DefaultRouter :=
  match self.removeSubscriber topicFilter id with
  | (some true, self) =>
    let self := self.removeRelation topicFilter
    match Topic.fromStr topicFilter with
    | .ok topic => (.ok true, self.removeTopic topic)
    | .error e => (.error e, self)
  | (some false, self) => (.ok true, self)
  | (none, self) => (.ok false, self)

inductive Call
  | add (topicFilter : TopicFilter) (id : Id) (opts : SubscriptionOptions)
  | remove (topicFilter : TopicFilter) (id : Id)
  deriving DecidableEq

def call (self : DefaultRouter) : Call → DefaultRouter
  | .add topicFilter id opts => (self.add topicFilter id opts).2
  | .remove topicFilter id => (self.remove topicFilter id).2

def run (self : DefaultRouter) (calls : List Call) : DefaultRouter := calls.foldl call self

/-! ## Subscriptions -/

def subscription (self : DefaultRouter) (topicFilter : TopicFilter) (clientId : ClientId) :
    Option (Id × SubscriptionOptions) :=
  (self.relations.lookup topicFilter).bind fun rels => rels.lookup clientId

variable {r : DefaultRouter} {f g : TopicFilter} {c : ClientId} {id : Id}

theorem mem_of_subscription {x : Id × SubscriptionOptions} (h : r.subscription f c = some x) :
    f ∈ r.relations := by
  obtain ⟨rels, hrels, -⟩ := bind_eq_some_iff.1 h
  exact mem_of_lookup_eq_some hrels

theorem subscription_insertRelation (r : DefaultRouter) (f g : TopicFilter) (id : Id)
    (opts : SubscriptionOptions) (c : ClientId) :
    (r.insertRelation f id opts).subscription g c =
      if g = f ∧ c = id.clientId then some (id, opts) else r.subscription g c := by
  unfold subscription insertRelation
  rw [Map.lookup_insert']
  by_cases hg : g = f
  · subst hg
    rw [if_pos rfl, bind_some, Map.lookup_insert']
    simp only [true_and]
    split_ifs
    · rfl
    · cases r.relations.lookup g <;> rfl
  · rw [if_neg hg, if_neg fun h => hg h.1]

theorem removeEnable_iff :
    r.removeEnable f id = true ↔ ∃ opts, r.subscription f id.clientId = some (id, opts) := by
  unfold removeEnable subscription
  rcases r.relations.lookup f with _ | rels
  · simp
  · rcases h : rels.lookup id.clientId with _ | ⟨sId, opts⟩
    all_goals simp [h]

theorem subscription_removeRelation (r : DefaultRouter) (f g : TopicFilter) (c : ClientId) :
    (r.removeRelation f).subscription g c = if g = f then none else r.subscription g c := by
  unfold subscription removeRelation
  split_ifs with h hg hg
  · rw [Map.lookup_erase', if_pos hg]
    rfl
  · rw [Map.lookup_erase', if_neg hg]
  · subst hg
    rw [not_isSome_iff_eq_none.1 h]
    rfl
  · rfl

theorem subscription_removeSubscriber (r : DefaultRouter) (f g : TopicFilter) (id : Id)
    (c : ClientId) :
    (r.removeSubscriber f id).2.subscription g c =
      if g = f ∧ c = id.clientId ∧ r.removeEnable f id = true then none
      else r.subscription g c := by
  unfold removeSubscriber
  by_cases he : r.removeEnable f id = true
  · rw [if_pos he]
    unfold subscription
    rw [Map.lookup_insert']
    by_cases hg : g = f
    · subst hg
      rw [if_pos rfl, bind_some, Map.lookup_erase']
      simp only [he, and_true, true_and]
      split_ifs
      · rfl
      · cases r.relations.lookup g <;> rfl
    · rw [if_neg hg, if_neg fun h => hg h.1]
  · rw [if_neg he, if_neg fun h => he h.2.2]

theorem removeSubscriber_eq_none {r' : DefaultRouter} (h : r.removeSubscriber f id = (none, r')) :
    r' = r := by
  unfold removeSubscriber at h
  by_cases he : r.removeEnable f id = true
  · rw [if_pos he] at h
    cases h
  · rw [if_neg he] at h
    exact (Prod.mk.inj h).2.symm

theorem removeSubscriber_eq_some {b : Bool} {r' : DefaultRouter}
    (h : r.removeSubscriber f id = (some b, r')) :
    ∃ rels opts, r.relations.lookup f = some rels ∧ rels.lookup id.clientId = some (id, opts) ∧
      b = Map.isEmpty (rels.erase id.clientId) ∧
      r' = { r with
        relations := r.relations.insert f (rels.erase id.clientId)
        relationsCount := r.relationsCount.dec } := by
  unfold removeSubscriber at h
  by_cases he : r.removeEnable f id = true
  · rw [if_pos he] at h
    obtain ⟨opts, hopts⟩ := removeEnable_iff.1 he
    obtain ⟨rels, hrels, hid⟩ := bind_eq_some_iff.1 hopts
    rw [hrels] at h
    cases h
    exact ⟨rels, opts, hrels, hid, rfl, rfl⟩
  · rw [if_neg he] at h
    cases h

theorem subscription_of_emptied {r' : DefaultRouter} (h : r.removeSubscriber f id = (some true, r'))
    (c : ClientId) : r'.subscription f c = none := by
  obtain ⟨rels, opts, -, -, hempty, rfl⟩ := removeSubscriber_eq_some h
  unfold subscription
  rw [lookup_insert, Map.isEmpty_iff.1 hempty.symm]
  rfl

theorem subscription_remove (r : DefaultRouter) (f g : TopicFilter) (id : Id) (c : ClientId) :
    (r.remove f id).2.subscription g c =
      if g = f ∧ c = id.clientId ∧ r.removeEnable f id = true then none
      else r.subscription g c := by
  have hsub := subscription_removeSubscriber r f g id c
  rcases h : r.removeSubscriber f id with ⟨_ | _ | _, r'⟩
  · simpa only [remove, h] using hsub
  · simpa only [remove, h] using hsub
  · have hdelete : (r'.removeRelation f).subscription g c = r'.subscription g c := by
      rw [subscription_removeRelation]
      split_ifs with hg
      · rw [hg, subscription_of_emptied h]
      · rfl
    rw [h] at hsub
    unfold remove
    rw [h]
    rcases Topic.fromStr f with e | t
    all_goals exact hdelete.trans hsub

/-! ## Consistency -/

/-- The levels of a filter that the parser accepts. -/
def IsFilter (f : TopicFilter) (ks : List Level) : Prop :=
  ∃ t, Topic.fromStr f = .ok t ∧ t.levels = ks

theorem IsFilter.unique {ks ks' : List Level} (h : IsFilter f ks) (h' : IsFilter f ks') :
    ks = ks' := by
  obtain ⟨t, ht, rfl⟩ := h
  obtain ⟨t', ht', rfl⟩ := h'
  rw [ht] at ht'
  cases ht'
  rfl

theorem IsFilter.injective {ks : List Level} (h : IsFilter f ks) (h' : IsFilter g ks) : f = g := by
  obtain ⟨t, ht, rfl⟩ := h
  obtain ⟨t', ht', hlevels⟩ := h'
  exact Topic.fromStr_injective ht ht' hlevels.symm

/-- How the parts of the router belong together. -/
structure Consistent (r : DefaultRouter) : Prop where
  /-- The filters in the tree are the keys of the relations. -/
  topics : ∀ ks, r.topics.get ks ≠ ∅ ↔ ∃ f ∈ r.relations, IsFilter f ks
  parsed : ∀ f ∈ r.relations, ∃ ks, IsFilter f ks
  nonempty : ∀ f rels, r.relations.lookup f = some rels → rels ≠ ∅
  topicsCount : r.topicsCount.count = r.relations.keys.card
  relationsCount : r.relationsCount.count = Map.sum r.relations fun rels => rels.keys.card
  own : ∀ f c id opts, r.subscription f c = some (id, opts) → id.clientId = c

theorem consistent_new : Consistent {} where
  topics ks := by
    refine iff_of_false (by simp [Payload.vacant]) ?_
    rintro ⟨f, hf, -⟩
    exact notMem_empty hf
  parsed f h := absurd h notMem_empty
  nonempty f rels h := by simp at h
  topicsCount := rfl
  relationsCount := rfl
  own f c id opts h := by simp [subscription] at h

theorem Consistent.add (h : r.Consistent) (f : TopicFilter) (id : Id) (opts : SubscriptionOptions) :
    (r.add f id opts).2.Consistent := by
  rcases ht : Topic.fromStr f with e | t
  · rwa [DefaultRouter.add, ht]
  have hr' : (r.add f id opts).2 = (r.insertTopic t).insertRelation f id opts := by
    rw [DefaultRouter.add, ht]
  rw [hr']
  refine ⟨fun ks => ?_, fun g hg => ?_, fun g rels hg => ?_, ?_, ?_, fun g c i o hg => ?_⟩
  · change ((r.topics.insert t ()).1.get ks ≠ ∅) ↔ ∃ g ∈ r.relations.insert f _, _
    rw [TopicTree.get_insert]
    split_ifs with hks
    · exact iff_of_true (Finset.insert_ne_empty _ _)
        ⟨f, mem_insert.2 (Or.inl rfl), t, ht, hks.symm⟩
    · rw [h.topics]
      constructor
      · rintro ⟨g, hg, hgk⟩
        exact ⟨g, mem_insert.2 (Or.inr hg), hgk⟩
      · rintro ⟨g, hg, hgk⟩
        rcases mem_insert.1 hg with rfl | hg
        · exact absurd (hgk.unique ⟨t, ht, rfl⟩) hks
        · exact ⟨g, hg, hgk⟩
  · rcases mem_insert.1 hg with rfl | hg
    · exact ⟨_, t, ht, rfl⟩
    · exact h.parsed g hg
  · change (r.relations.insert f _).lookup g = some rels at hg
    rw [Map.lookup_insert'] at hg
    split_ifs at hg with hgf
    · cases hg
      intro hempty
      have := congrArg (Finmap.lookup id.clientId) hempty
      simp at this
    · exact h.nonempty g rels hg
  · change (if (r.relations.lookup f).isNone then r.topicsCount.inc else r.topicsCount).count =
      ((r.relations.insert f _).keys.card : ℤ)
    rw [Map.card_keys_insert]
    split_ifs <;> simp [h.topicsCount]
  · change (if (((r.relations.lookup f).getD ∅).lookup id.clientId).isNone then
      r.relationsCount.inc else r.relationsCount).count = (Map.sum (r.relations.insert f
        (((r.relations.lookup f).getD ∅).insert id.clientId (id, opts))) _ : ℤ)
    have hsum := Map.sum_eq_add_erase r.relations (fun rels => rels.keys.card) f
    have hcount := h.relationsCount
    have hold : ((r.relations.lookup f).map fun rels : Subscribers => rels.keys.card).getD 0 =
        ((r.relations.lookup f).getD ∅).keys.card := by
      cases r.relations.lookup f <;> rfl
    rw [Map.sum_insert, Map.card_keys_insert]
    split_ifs
    · rw [Counter.count_inc]
      omega
    · omega
  · rw [subscription_insertRelation] at hg
    split_ifs at hg with hgc
    · cases hg
      exact hgc.2.symm
    · exact h.own g c i o hg

theorem Consistent.remove (h : r.Consistent) (f : TopicFilter) (id : Id) :
    (r.remove f id).2.Consistent := by
  have hown (g : TopicFilter) (c : ClientId) (i : Id) (o : SubscriptionOptions)
      (hg : (r.remove f id).2.subscription g c = some (i, o)) : i.clientId = c := by
    rw [subscription_remove] at hg
    split_ifs at hg
    exact h.own g c i o hg
  rcases hs : r.removeSubscriber f id with ⟨_ | b, r'⟩
  · rw [DefaultRouter.remove, hs]
    rwa [removeSubscriber_eq_none hs]
  obtain ⟨rels, opts, hrels, hid, hb, rfl⟩ := removeSubscriber_eq_some hs
  have hf : f ∈ r.relations := mem_of_lookup_eq_some hrels
  have hsum := Map.sum_eq_add_erase r.relations (fun rels => rels.keys.card) f
  have hcard := Map.card_keys_erase hid
  have hcount := h.relationsCount
  rw [hrels] at hsum
  simp only [map_some, getD_some] at hsum
  cases b with
  | false =>
    -- other clients are left: only the entry changes
    have hkeys (g : TopicFilter) : g ∈ r.relations.insert f (rels.erase id.clientId) ↔
        g ∈ r.relations := by
      rw [mem_insert]
      exact ⟨fun hg => hg.elim (fun hg => hg ▸ hf) fun hg => hg, Or.inr⟩
    rw [DefaultRouter.remove, hs] at hown ⊢
    refine ⟨fun ks => ?_, fun g hg => h.parsed g ((hkeys g).1 hg), fun g rels' hg => ?_, ?_, ?_, hown⟩
    · simp only [hkeys]
      exact h.topics ks
    · rw [Map.lookup_insert'] at hg
      split_ifs at hg
      · cases hg
        intro hempty
        rw [Map.isEmpty_iff.2 hempty] at hb
        cases hb
      · exact h.nonempty g rels' hg
    · rw [Map.card_keys_insert, hrels]
      simpa using h.topicsCount
    · rw [Map.sum_insert]
      simp only [Counter.count_dec]
      omega
  | true =>
    -- the last client has left: the filter goes as well
    obtain ⟨_, t, ht, rfl⟩ := h.parsed f hf
    have hr' : (r.remove f id).2 =
        { topics := (r.topics.remove t ()).1
          topicsCount := r.topicsCount.dec
          relations := r.relations.erase f
          relationsCount := r.relationsCount.dec } := by
      simp only [DefaultRouter.remove, hs, removeRelation, lookup_insert, isSome_some,
        if_true, ht, removeTopic, Map.erase_insert]
    rw [hr'] at hown ⊢
    refine ⟨fun ks => ?_, fun g hg => h.parsed g (mem_erase.1 hg).2, fun g rels' hg => ?_,
      ?_, ?_, hown⟩
    · rw [TopicTree.get_remove]
      split_ifs with hks
      · refine iff_of_false (fun hne => hne (Finset.eq_empty_of_forall_notMem ?_)) ?_
        · intro u hu
          exact (Finset.mem_erase.1 hu).1 rfl
        · rintro ⟨g, hg, hgk⟩
          rw [hks] at hgk
          exact (mem_erase.1 hg).1 (hgk.injective ⟨t, ht, rfl⟩)
      · rw [h.topics]
        constructor
        · rintro ⟨g, hg, hgk⟩
          refine ⟨g, mem_erase.2 ⟨?_, hg⟩, hgk⟩
          rintro rfl
          exact hks (hgk.unique ⟨t, ht, rfl⟩)
        · rintro ⟨g, hg, hgk⟩
          exact ⟨g, (mem_erase.1 hg).2, hgk⟩
    · rw [Map.lookup_erase'] at hg
      split_ifs at hg
      exact h.nonempty g rels' hg
    · have := Map.card_keys_erase hrels
      have := h.topicsCount
      simp only [Counter.count_dec]
      omega
    · have hempty : (rels.erase id.clientId).keys.card = 0 := by
        rw [Map.isEmpty_iff.1 hb.symm]
        rfl
      simp only [Counter.count_dec]
      omega

theorem Consistent.call (h : r.Consistent) (x : Call) : (r.call x).Consistent := by
  cases x with
  | add f id opts => exact h.add f id opts
  | remove f id => exact h.remove f id

theorem consistent_run (calls : List Call) : (run {} calls).Consistent :=
  foldl_invariant (fun _ x h => h.call x) consistent_new calls

/-! ## Sequences of calls -/

/-- The call is about the subscription of `c` to `f`. -/
def Call.IsFor (f : TopicFilter) (c : ClientId) : Call → Prop
  | .add g id _ => g = f ∧ id.clientId = c
  | .remove g id => g = f ∧ id.clientId = c

/-- The call leaves the subscription of `c` to `f` alone if it has the id `i`. -/
def Call.Spares (f : TopicFilter) (c : ClientId) (i : Id) (x : Call) : Prop :=
  x.IsFor f c → ∃ j, x = .remove f j ∧ j ≠ i

/-- The subscriptions are those that the calls of the log leave: a subscription is the one of the
last `add`, unless a `remove` with its id came later. -/
def Records (r : DefaultRouter) (log : List Call) : Prop :=
  ∀ f c i opts, r.subscription f c = some (i, opts) ↔
    (∃ ks, IsFilter f ks) ∧ i.clientId = c ∧ LastThat (Call.Spares f c i) (.add f i opts) log

namespace Records

variable {r' : DefaultRouter} {log : List Call}

theorem congr (h : Records r log) (hr : ∀ f c, r'.subscription f c = r.subscription f c) :
    Records r' log := by
  intro f c i opts
  rw [hr]
  exact h f c i opts

theorem skip {x : Call} {f : TopicFilter} {c : ClientId} {i : Id} {opts : SubscriptionOptions}
    (h : Records r log) (hx : ¬ x.IsFor f c) :
    r.subscription f c = some (i, opts) ↔ (∃ ks, IsFilter f ks) ∧ i.clientId = c ∧
      LastThat (Call.Spares f c i) (.add f i opts) (log ++ [x]) := by
  rw [h f c i opts, lastThat_concat]
  constructor
  · rintro ⟨hf, hc, h⟩
    exact ⟨hf, hc, Or.inr ⟨h, fun hfor => absurd hfor hx⟩⟩
  · rintro ⟨hf, hc, rfl | h⟩
    · exact absurd ⟨rfl, hc⟩ hx
    · exact ⟨hf, hc, h.1⟩

theorem insertRelation (h : Records r log) (hg : ∃ ks, IsFilter g ks) (id : Id)
    (o : SubscriptionOptions) :
    Records (r.insertRelation g id o) (log ++ [.add g id o]) := by
  intro f c i opts
  rw [subscription_insertRelation]
  split_ifs with hfor
  · obtain ⟨rfl, rfl⟩ := hfor
    rw [lastThat_concat]
    constructor
    · intro h
      cases h
      exact ⟨hg, rfl, Or.inl rfl⟩
    · rintro ⟨-, -, h | ⟨-, h⟩⟩
      · cases h
        rfl
      · obtain ⟨_, h, -⟩ := h ⟨rfl, rfl⟩
        cases h
  · exact h.skip fun hx => hfor ⟨hx.1.symm, hx.2.symm⟩

theorem removeSubscriber (h : Records r log) (g : TopicFilter) (j : Id) :
    Records (r.removeSubscriber g j).2 (log ++ [.remove g j]) := by
  intro f c i opts
  rw [subscription_removeSubscriber]
  by_cases hfor : f = g ∧ c = j.clientId
  · obtain ⟨rfl, rfl⟩ := hfor
    rw [lastThat_concat]
    by_cases he : r.removeEnable f j = true
    · -- the stored id is `j`, so that the last `add` is not spared
      rw [if_pos ⟨rfl, rfl, he⟩]
      refine iff_of_false (by simp) ?_
      rintro ⟨hf, hc, hx | ⟨hx, hspares⟩⟩
      · cases hx
      · obtain ⟨o, ho⟩ := removeEnable_iff.1 he
        rw [(h f _ i opts).2 ⟨hf, hc, hx⟩] at ho
        obtain ⟨_, hj, hne⟩ := hspares ⟨rfl, rfl⟩
        cases hj
        cases ho
        exact hne rfl
    · rw [if_neg fun hx => he hx.2.2, h f _ i opts]
      constructor
      · rintro ⟨hf, hc, hx⟩
        refine ⟨hf, hc, Or.inr ⟨hx, fun _ => ⟨j, rfl, ?_⟩⟩⟩
        rintro rfl
        exact he (removeEnable_iff.2 ⟨opts, (h f _ j opts).2 ⟨hf, hc, hx⟩⟩)
      · rintro ⟨hf, hc, hx | hx⟩
        · cases hx
        · exact ⟨hf, hc, hx.1⟩
  · rw [if_neg fun hx => hfor ⟨hx.1, hx.2.1⟩]
    exact h.skip fun hx => hfor ⟨hx.1.symm, hx.2.symm⟩

theorem call (h : Records r log) (x : Call) : Records (r.call x) (log ++ [x]) := by
  cases x with
  | add g j o =>
    rcases ht : Topic.fromStr g with e | t
    · -- the filter is not accepted, so that it never has a subscriber
      have hno : ¬ ∃ ks, IsFilter g ks := by
        rintro ⟨_, t, ht', -⟩
        rw [ht] at ht'
        cases ht'
      intro f c i opts
      rw [DefaultRouter.call, DefaultRouter.add, ht]
      by_cases hfor : g = f
      · subst hfor
        exact iff_of_false (fun hs => hno ((h g c i opts).1 hs).1) fun hx => hno hx.1
      · exact h.skip fun hx => hfor hx.1
    · rw [DefaultRouter.call, DefaultRouter.add, ht]
      exact insertRelation (h.congr fun _ _ => rfl) ⟨_, t, ht, rfl⟩ j o
  | remove g j =>
    refine (h.removeSubscriber g j).congr fun f c => ?_
    rw [DefaultRouter.call, subscription_remove, subscription_removeSubscriber]

end Records

theorem records_new : Records {} [] := by
  intro f c i opts
  refine iff_of_false (by simp [subscription]) ?_
  rintro ⟨-, -, h⟩
  exact not_lastThat_nil _ _ h

theorem records_run (calls : List Call) : Records (run {} calls) calls := by
  induction calls using List.reverseRecOn with
  | nil => exact records_new
  | append_singleton calls x ih =>
    rw [run, List.foldl_append]
    exact ih.call x

/-- The bookkeeping of the router after any sequence of calls. -/
theorem bookkeeping (calls : List Call) :
    (run {} calls).Consistent ∧
      ∀ f c i opts, (run {} calls).subscription f c = some (i, opts) ↔
        (∃ ks, IsFilter f ks) ∧ i.clientId = c ∧
          LastThat (Call.Spares f c i) (.add f i opts) calls :=
  ⟨consistent_run calls, records_run calls⟩

end DefaultRouter

end FerroMq
