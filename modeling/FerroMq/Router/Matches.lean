import FerroMq.Lib.Walk
import FerroMq.Router.Default
import FerroMq.Topic.TreeMatch

/-!
# Matching a published topic

`DefaultRouter::_matches` and the collector of `types.rs`: subscriptions are collected per node, those of a
share group are reduced to one by a strategy, and those of an MQTT 5 client at a node become one entry
(`Collector.Holds`, `CollectorMap.Holds`).
-/

namespace FerroMq

open Lib Codec List

abbrev SubscriptionIdentifier := NonZeroU32

abbrev SharedGroupType := SharedGroup × Bool × List ClientId

structure SubRelation where
  topicFilter : TopicFilter
  clientId : ClientId
  opts : SubscriptionOptions
  subIds : Option (List SubscriptionIdentifier)
  group : Option SharedGroupType
  deriving DecidableEq

abbrev SubRelationsMap := Map NodeId (List SubRelation)

/-- What the collector keeps for an MQTT 5 client. -/
structure V5Relation where
  topicFilter : TopicFilter
  opts : SubscriptionOptions
  subIds : Option (List SubscriptionIdentifier)
  group : Option SharedGroupType

structure Collector where
  v3Rels : List SubRelation := []
  v5Rels : Map ClientId V5Relation := ∅

/-- A subscription as it is given to a collector, with the node of the collector. -/
structure Contribution where
  nodeId : NodeId
  topicFilter : TopicFilter
  clientId : ClientId
  opts : SubscriptionOptions
  group : Option SharedGroupType

namespace Contribution

def v3Relation (x : Contribution) : SubRelation :=
  ⟨x.topicFilter, x.clientId, x.opts, none, x.group⟩

def merge (x : Contribution) : Option V5Relation → V5Relation
  | some rel =>
    match x.opts.subscriptionIdentifier with
    | some subId =>
      match rel.subIds with
      | some subIds => { rel with subIds := some (subIds ++ [subId]) }
      | none => { rel with subIds := some [subId] }
    | none => rel
  | none =>
    ⟨x.topicFilter, x.opts, x.opts.subscriptionIdentifier.map fun subId => [subId], x.group⟩

end Contribution

namespace Collector

def add (self : Collector) (x : Contribution) : Collector :=
  if x.opts.isV3 then { self with v3Rels := self.v3Rels ++ [x.v3Relation] }
  else
    { self with
      v5Rels := self.v5Rels.insert x.clientId (x.merge (self.v5Rels.lookup x.clientId)) }

def into (clients : Walk ClientId V5Relation) (self : Collector) : List SubRelation :=
  self.v3Rels ++ (clients.list self.v5Rels).map fun e =>
    ⟨e.2.topicFilter, e.1, e.2.opts, e.2.subIds, e.2.group⟩

end Collector

abbrev CollectorMap := Map NodeId Collector

def CollectorMap.collect (m : CollectorMap) (x : Contribution) : CollectorMap :=
  m.insert x.nodeId (((m.lookup x.nodeId).getD {}).add x)

/-- A member of a share group, as it is given to the strategy. -/
structure Candidate where
  nodeId : NodeId
  clientId : ClientId
  opts : SubscriptionOptions
  subIds : Option (List SubscriptionIdentifier)
  isOnline : Option Bool

abbrev Groups := Map SharedGroup (List Candidate)

/-- What a call finds outside the router: which clients are online, the strategy for share groups,
which may keep a state, and the orders in which hash maps are walked. -/
structure Surroundings (σ : Type) where
  isOnline : σ → NodeId → ClientId → Bool
  choice : σ → SharedGroup → Id → String → List Candidate → Option (ℕ × Bool) × σ
  rels : TopicFilter → Walk ClientId (Id × SubscriptionOptions)
  groups : σ → TopicFilter → Walk SharedGroup (List Candidate)
  nodes : Walk NodeId Collector
  clients : NodeId → Walk ClientId V5Relation

/-- The strategy picks a member of every group that has one. -/
def Surroundings.Chooses {σ : Type} (env : Surroundings σ) : Prop :=
  ∀ s group thisId topicName candidates, candidates ≠ [] → ∃ idx isOnline s',
    env.choice s group thisId topicName candidates = (some (idx, isOnline), s') ∧
      idx < candidates.length

inductive MatchError
  | topic (e : TopicError)
  /-- `Vec::remove` with an index out of range. -/
  | panicked

namespace DefaultRouter

variable {σ : Type} (env : Surroundings σ) (thisId : Id) (topicName : String)

def skips (id : Id) (opts : SubscriptionOptions) : Bool :=
  match opts.noLocal with
  | some noLocal => noLocal && thisId = id
  | none => false

def visitSubscriber (s : σ) (topicFilter : TopicFilter) (acc : CollectorMap × Groups)
    (e : Σ _ : ClientId, Id × SubscriptionOptions) : CollectorMap × Groups :=
  let ⟨clientId, id, opts⟩ := e
  if skips thisId id opts then acc
  else
    match opts.sharedGroup with
    | some group =>
      let candidate := ⟨id.nodeId, clientId, opts, none, some (env.isOnline s id.nodeId clientId)⟩
      (acc.1, acc.2.insert group ((acc.2.lookup group).getD [] ++ [candidate]))
    | none => (acc.1.collect ⟨id.nodeId, topicFilter, clientId, opts, none⟩, acc.2)

def visitGroup (topicFilter : TopicFilter) (acc : CollectorMap × σ)
    (e : Σ _ : SharedGroup, List Candidate) : Except MatchError (CollectorMap × σ) :=
  let groupCids := e.2.map Candidate.clientId
  match env.choice acc.2 e.1 thisId topicName e.2 with
  | (some (idx, isOnline), s) =>
    match e.2[idx]? with
    | some x => .ok
        (acc.1.collect ⟨x.nodeId, topicFilter, x.clientId, x.opts, some (e.1, isOnline, groupCids)⟩, s)
    | none => .error .panicked
  | (none, s) => .ok (acc.1, s)

def visitFilter (self : DefaultRouter) (acc : CollectorMap × σ) (item : Item Unit) :
    Except MatchError (CollectorMap × σ) :=
  let topicFilter := Topic.toStr ⟨item.1⟩
  let visited : CollectorMap × Groups :=
    match self.relations.lookup topicFilter with
    | some rels => ((env.rels topicFilter).list rels).foldl
        (visitSubscriber env thisId acc.2 topicFilter) (acc.1, ∅)
    | none => (acc.1, ∅)
  ((env.groups acc.2 topicFilter).list visited.2).foldlM (visitGroup env thisId topicName topicFilter)
    (visited.1, acc.2)

def «matches» (self : DefaultRouter) (s : σ) : Except MatchError (SubRelationsMap × σ) := do
  let topic ← (Topic.fromStr topicName).mapError .topic
  let (collectors, s) ← (self.topics.iter topic).foldlM (visitFilter env thisId topicName self) (∅, s)
  .ok (Map.insertAll ∅ ((env.nodes.list collectors).map fun e => ⟨e.1, e.2.into (env.clients e.1)⟩), s)

end DefaultRouter

/-! ## What the collectors hold -/

namespace Contribution

/-- The entry of a client after its contributions `l`. -/
def Merged (l : List Contribution) : Option V5Relation → Prop
  | none => l = []
  | some rel =>
    (∃ x ∈ l, rel.topicFilter = x.topicFilter ∧ rel.opts = x.opts ∧ rel.group = x.group) ∧
      rel.subIds.getD [] = l.filterMap fun x => x.opts.subscriptionIdentifier

theorem merge_some (x : Contribution) (rel : V5Relation) :
    x.merge (some rel) = { rel with subIds := (x.merge (some rel)).subIds } := by
  simp only [merge]
  split <;> [split; skip] <;> rfl

theorem Merged.merge {l : List Contribution} {o : Option V5Relation} (h : Merged l o)
    (x : Contribution) : Merged (l ++ [x]) (some (x.merge o)) := by
  cases o with
  | none =>
    obtain rfl : l = [] := h
    refine ⟨⟨x, by simp, rfl, rfl, rfl⟩, ?_⟩
    cases hid : x.opts.subscriptionIdentifier <;> simp [Contribution.merge, hid]
  | some rel =>
    obtain ⟨⟨y, hy, hrel⟩, hids⟩ := h
    refine ⟨⟨y, by simp [hy], ?_⟩, ?_⟩
    · rw [x.merge_some rel]
      exact hrel
    · rw [filterMap_append, ← hids]
      cases hid : x.opts.subscriptionIdentifier with
      | none => simp [Contribution.merge, hid]
      | some subId => cases hsub : rel.subIds <;> simp [Contribution.merge, hid, hsub]

def isOfClient (c : ClientId) (x : Contribution) : Bool := !x.opts.isV3 && x.clientId = c

def isAtNode (n : NodeId) (x : Contribution) : Bool := x.nodeId = n

end Contribution

/-- The collector holds what the contributions `l` have become. -/
structure Collector.Holds (col : Collector) (l : List Contribution) : Prop where
  v3Rels : col.v3Rels = (l.filter fun x => x.opts.isV3).map Contribution.v3Relation
  v5Rels : ∀ c, Contribution.Merged (l.filter (Contribution.isOfClient c)) (col.v5Rels.lookup c)

theorem Collector.holds_new : Collector.Holds {} [] where
  v3Rels := rfl
  v5Rels _ := rfl

theorem Collector.Holds.add {col : Collector} {l : List Contribution} (h : col.Holds l)
    (x : Contribution) : (col.add x).Holds (l ++ [x]) := by
  unfold Collector.add
  split_ifs with hv3
  · refine ⟨?_, fun c => ?_⟩
    · rw [filter_append, map_append, ← h.v3Rels, filter_singleton, hv3]
      rfl
    · simpa [filter_append, Contribution.isOfClient, hv3] using h.v5Rels c
  · refine ⟨?_, fun c => ?_⟩
    · simpa [filter_append, hv3] using h.v3Rels
    · rw [filter_append, Map.lookup_insert']
      split_ifs with hc
      · subst hc
        have hx : [x].filter (Contribution.isOfClient x.clientId) = [x] := by
          simp [Contribution.isOfClient, hv3]
        rw [hx]
        exact (h.v5Rels x.clientId).merge x
      · have hx : [x].filter (Contribution.isOfClient c) = [] := by
          simp [Contribution.isOfClient, Ne.symm hc]
        rw [hx, append_nil]
        exact h.v5Rels c

/-- Every collector holds what the contributions at its node have become. -/
def CollectorMap.Holds (m : CollectorMap) (l : List Contribution) : Prop :=
  ∀ n, match m.lookup n with
    | none => l.filter (Contribution.isAtNode n) = []
    | some col => l.filter (Contribution.isAtNode n) ≠ [] ∧
        col.Holds (l.filter (Contribution.isAtNode n))

namespace CollectorMap

theorem holds_empty : CollectorMap.Holds ∅ [] := fun _ => rfl

variable {m : CollectorMap} {l : List Contribution}

theorem Holds.filter_eq_nil (h : m.Holds l) {n : NodeId}
    (hlookup : m.lookup n = none) : l.filter (Contribution.isAtNode n) = [] := by
  have hn := h n
  rwa [hlookup] at hn

theorem Holds.collector (h : m.Holds l) {n : NodeId} {col : Collector} (hlookup : m.lookup n = some col) :
    col.Holds (l.filter (Contribution.isAtNode n)) := by
  have hn := h n
  rw [hlookup] at hn
  exact hn.2

theorem Holds.getD (h : m.Holds l) (n : NodeId) :
    ((m.lookup n).getD {}).Holds (l.filter (Contribution.isAtNode n)) := by
  cases hlookup : m.lookup n with
  | none =>
    rw [h.filter_eq_nil hlookup]
    exact Collector.holds_new
  | some col => exact h.collector hlookup

theorem Holds.collect (h : m.Holds l) (x : Contribution) : (m.collect x).Holds (l ++ [x]) := by
  intro n
  rw [CollectorMap.collect, Map.lookup_insert', filter_append]
  split_ifs with hn
  · subst hn
    have hx : [x].filter (Contribution.isAtNode x.nodeId) = [x] := by simp [Contribution.isAtNode]
    rw [hx]
    exact ⟨by simp, (h.getD x.nodeId).add x⟩
  · have hx : [x].filter (Contribution.isAtNode n) = [] := by
      simp [Contribution.isAtNode, Ne.symm hn]
    rw [hx, append_nil]
    exact h n

end CollectorMap

/-! ## The loops -/

namespace DefaultRouter

section Subscribers

variable {σ : Type} (env : Surroundings σ) (thisId : Id) (s : σ) (f : TopicFilter)

def direct (l : List (Σ _ : ClientId, Id × SubscriptionOptions)) : List Contribution :=
  (l.filter fun e => !skips thisId e.2.1 e.2.2 && e.2.2.sharedGroup.isNone).map fun e =>
    ⟨e.2.1.nodeId, f, e.1, e.2.2, none⟩

def members (g : SharedGroup) (l : List (Σ _ : ClientId, Id × SubscriptionOptions)) :
    List Candidate :=
  (l.filter fun e => !skips thisId e.2.1 e.2.2 && e.2.2.sharedGroup = some g).map fun e =>
    ⟨e.2.1.nodeId, e.1, e.2.2, none, some (env.isOnline s e.2.1.nodeId e.1)⟩

/-- The state of the loop over the subscribers, after `l`. -/
structure Visited (acc : CollectorMap × Groups) (before : List Contribution)
    (l : List (Σ _ : ClientId, Id × SubscriptionOptions)) : Prop where
  collectors : acc.1.Holds (before ++ direct thisId f l)
  groups : ∀ g, (acc.2.lookup g).getD [] = members env thisId s g l
  nonempty : ∀ g, acc.2.lookup g ≠ some []

variable {env thisId s f}

theorem Visited.step {acc : CollectorMap × Groups} {before : List Contribution}
    {l : List (Σ _ : ClientId, Id × SubscriptionOptions)} (h : Visited env thisId s f acc before l)
    (e : Σ _ : ClientId, Id × SubscriptionOptions) :
    Visited env thisId s f (visitSubscriber env thisId s f acc e) before (l ++ [e]) := by
  obtain ⟨c, id, opts⟩ := e
  rw [visitSubscriber]
  split_ifs with hskip
  · have hdirect : direct thisId f (l ++ [⟨c, id, opts⟩]) = direct thisId f l := by
      simp [direct, hskip]
    refine ⟨hdirect ▸ h.collectors, fun g => ?_, h.nonempty⟩
    simpa [members, hskip] using h.groups g
  · cases hgroup : opts.sharedGroup with
    | none =>
      refine ⟨?_, fun g => ?_, h.nonempty⟩
      · have := h.collectors.collect ⟨id.nodeId, f, c, opts, none⟩
        simpa [direct, hskip, hgroup] using this
      · simpa [members, hskip, hgroup] using h.groups g
    | some group =>
      refine ⟨?_, fun g => ?_, fun g => ?_⟩
      · simpa [direct, hskip, hgroup] using h.collectors
      · dsimp only
        rw [Map.lookup_insert']
        split_ifs with hg
        · subst hg
          rw [Option.getD_some, h.groups g]
          simp [members, hskip, hgroup]
        · rw [h.groups g]
          simp [members, hgroup, Ne.symm hg]
      · dsimp only
        rw [Map.lookup_insert']
        split_ifs with hg
        · simp
        · exact h.nonempty g

theorem visited_foldl {m : CollectorMap} {before : List Contribution} (h : m.Holds before)
    (l : List (Σ _ : ClientId, Id × SubscriptionOptions)) :
    Visited env thisId s f (l.foldl (visitSubscriber env thisId s f) (m, ∅)) before l := by
  induction l using List.reverseRecOn with
  | nil => exact ⟨by simpa [direct] using h, fun _ => rfl, fun _ => by simp⟩
  | append_singleton l e ih =>
    rw [foldl_append]
    exact ih.step e

end Subscribers

section Groups

variable {σ : Type} {env : Surroundings σ} {thisId : Id} {topicName : String} {f : TopicFilter}

def Picks (f : TopicFilter) (e : Σ _ : SharedGroup, List Candidate) (x : Contribution) : Prop :=
  ∃ y ∈ e.2, ∃ isOnline, x =
    ⟨y.nodeId, f, y.clientId, y.opts, some (e.1, isOnline, e.2.map Candidate.clientId)⟩

theorem visitGroup_ok (henv : env.Chooses) {m : CollectorMap} {l : List Contribution}
    (h : m.Holds l) (s : σ) {e : Σ _ : SharedGroup, List Candidate} (he : e.2 ≠ []) :
    ∃ m' s' x, visitGroup env thisId topicName f (m, s) e = .ok (m', s') ∧ m'.Holds (l ++ [x]) ∧
      Picks f e x := by
  obtain ⟨idx, isOnline, s', hchoice, hidx⟩ := henv s e.1 thisId topicName e.2 he
  refine ⟨_, s', _, ?_, h.collect _, e.2[idx], getElem_mem hidx, isOnline, rfl⟩
  simp only [visitGroup, hchoice, getElem?_eq_getElem hidx]

theorem foldlM_visitGroup_ok (thisId : Id) (topicName : String) (henv : env.Chooses)
    {m : CollectorMap} {l : List Contribution} (h : m.Holds l) (s : σ)
    {gs : List (Σ _ : SharedGroup, List Candidate)} (hgs : ∀ e ∈ gs, e.2 ≠ []) :
    ∃ m' s' picked, gs.foldlM (visitGroup env thisId topicName f) (m, s) = .ok (m', s') ∧
      m'.Holds (l ++ picked) ∧ List.Forall₂ (Picks f) gs picked := by
  induction gs generalizing m l s with
  | nil => exact ⟨m, s, [], rfl, by simpa using h, .nil⟩
  | cons e gs ih =>
    obtain ⟨m₁, s₁, x, hok₁, hm₁, hx⟩ := visitGroup_ok henv h s (hgs e (by simp))
    obtain ⟨m₂, s₂, xs, hok₂, hm₂, hxs⟩ := ih hm₁ s₁ fun e' he' => hgs e' (by simp [he'])
    refine ⟨m₂, s₂, x :: xs, ?_, by simpa using hm₂, .cons hx hxs⟩
    rw [foldlM_cons, hok₁]
    exact hok₂

end Groups

/-- A subscription to the filter that is not left out for the publisher. -/
def Eligible (r : DefaultRouter) (thisId : Id) (f : TopicFilter) (c : ClientId) (id : Id)
    (opts : SubscriptionOptions) : Prop :=
  r.subscription f c = some (id, opts) ∧ ¬ (opts.noLocal = some true ∧ thisId = id)

theorem skips_eq_false_iff {thisId id : Id} {opts : SubscriptionOptions} :
    skips thisId id opts = false ↔ ¬ (opts.noLocal = some true ∧ thisId = id) := by
  unfold skips
  split <;> simp_all

/-- What is collected for one filter: every eligible subscriber outside share groups, and one of each
share group that has any. -/
structure Visit (r : DefaultRouter) (thisId : Id) (f : TopicFilter) (l : List Contribution) :
    Prop where
  origin : ∀ x ∈ l, x.topicFilter = f ∧ x.group.map Prod.fst = x.opts.sharedGroup ∧
    ∃ id, r.Eligible thisId f x.clientId id x.opts ∧ id.nodeId = x.nodeId
  nodup : (l.map Contribution.clientId).Nodup
  direct : ∀ c id opts, r.Eligible thisId f c id opts → opts.sharedGroup = none →
    ∃ x ∈ l, x.clientId = c
  groups : ∀ g c id opts, r.Eligible thisId f c id opts → opts.sharedGroup = some g →
    ∃ x ∈ l, x.opts.sharedGroup = some g
  unique : ∀ g, ∀ x ∈ l, ∀ y ∈ l, x.opts.sharedGroup = some g → y.opts.sharedGroup = some g →
    x.clientId = y.clientId

section Filters

variable {σ : Type} {env : Surroundings σ} {thisId : Id} {topicName : String} {r : DefaultRouter}
  {f : TopicFilter} {rels : Subscribers}

variable {w : Walk ClientId (Id × SubscriptionOptions)} {x : Contribution}
  {gs : List (Σ _ : SharedGroup, List Candidate)} {picked : List Contribution}

theorem mem_walk (hrels : r.relations.lookup f = some rels) {c : ClientId} {id : Id}
    {opts : SubscriptionOptions} :
    ⟨c, id, opts⟩ ∈ w.list rels ∧ skips thisId id opts = false ↔ r.Eligible thisId f c id opts := by
  rw [w.mem_list, skips_eq_false_iff, Eligible, subscription, hrels, Option.bind_some]

theorem mem_direct (hrels : r.relations.lookup f = some rels) :
    x ∈ direct thisId f (w.list rels) ↔ ∃ c id opts, r.Eligible thisId f c id opts ∧
      opts.sharedGroup = none ∧ x = ⟨id.nodeId, f, c, opts, none⟩ := by
  simp only [direct, mem_map, mem_filter, Bool.and_eq_true, Bool.not_eq_true',
    Option.isNone_iff_eq_none, Sigma.exists, Prod.exists, ← mem_walk (w := w) hrels]
  constructor
  · rintro ⟨c, id, opts, ⟨hmem, hskip, hg⟩, rfl⟩
    exact ⟨c, id, opts, ⟨hmem, hskip⟩, hg, rfl⟩
  · rintro ⟨c, id, opts, ⟨hmem, hskip⟩, hg, rfl⟩
    exact ⟨c, id, opts, ⟨hmem, hskip, hg⟩, rfl⟩

theorem mem_members (hrels : r.relations.lookup f = some rels) {s : σ} {g : SharedGroup} {y : Candidate} :
    y ∈ members env thisId s g (w.list rels) ↔ ∃ c id opts, r.Eligible thisId f c id opts ∧
      opts.sharedGroup = some g ∧ y = ⟨id.nodeId, c, opts, none, some (env.isOnline s id.nodeId c)⟩ := by
  simp only [members, mem_map, mem_filter, Bool.and_eq_true, Bool.not_eq_true',
    decide_eq_true_eq, Sigma.exists, Prod.exists, ← mem_walk (w := w) hrels]
  constructor
  · rintro ⟨c, id, opts, ⟨hmem, hskip, hg⟩, rfl⟩
    exact ⟨c, id, opts, ⟨hmem, hskip⟩, hg, rfl⟩
  · rintro ⟨c, id, opts, ⟨hmem, hskip⟩, hg, rfl⟩
    exact ⟨c, id, opts, ⟨hmem, hskip, hg⟩, rfl⟩

def groupOf (r : DefaultRouter) (f : TopicFilter) (c : ClientId) : Option SharedGroup :=
  (r.subscription f c).bind fun x => x.2.sharedGroup

theorem Eligible.groupOf {c : ClientId} {id : Id} {opts : SubscriptionOptions}
    (h : r.Eligible thisId f c id opts) : r.groupOf f c = opts.sharedGroup := by
  rw [DefaultRouter.groupOf, h.1, Option.bind_some]

/-- The list of a group holds its eligible members. -/
def Lists (r : DefaultRouter) (thisId : Id) (f : TopicFilter)
    (e : Σ _ : SharedGroup, List Candidate) : Prop :=
  ∀ y ∈ e.2, ∃ id, r.Eligible thisId f y.clientId id y.opts ∧ y.opts.sharedGroup = some e.1 ∧
    id.nodeId = y.nodeId

theorem Picks.origin {e : Σ _ : SharedGroup, List Candidate} (h : Picks f e x) (he : r.Lists thisId f e) :
    x.topicFilter = f ∧ x.group.map Prod.fst = x.opts.sharedGroup ∧
      ∃ id, r.Eligible thisId f x.clientId id x.opts ∧ id.nodeId = x.nodeId := by
  obtain ⟨y, hy, isOnline, rfl⟩ := h
  obtain ⟨id, hid, hg, hnode⟩ := he y hy
  exact ⟨rfl, hg.symm, id, hid, hnode⟩

theorem Picks.sharedGroup {e : Σ _ : SharedGroup, List Candidate}
    (h : Picks f e x) (he : r.Lists thisId f e) : x.opts.sharedGroup = some e.1 := by
  obtain ⟨y, hy, isOnline, rfl⟩ := h
  obtain ⟨-, -, hg, -⟩ := he y hy
  exact hg

theorem map_sharedGroup_of_picks (h : List.Forall₂ (Picks f) gs picked) (hgs : ∀ e ∈ gs, r.Lists thisId f e) :
    picked.map (fun x => x.opts.sharedGroup) = gs.keys.map some := by
  induction h with
  | nil => rfl
  | cons hx _ ih =>
    rw [map_cons, ih fun e he => hgs e (by simp [he]), hx.sharedGroup (hgs _ (by simp))]
    rfl

theorem origin_of_picks (h : List.Forall₂ (Picks f) gs picked)
    (hgs : ∀ e ∈ gs, r.Lists thisId f e) (hx : x ∈ picked) :
    x.topicFilter = f ∧ x.group.map Prod.fst = x.opts.sharedGroup ∧
      ∃ id, r.Eligible thisId f x.clientId id x.opts ∧ id.nodeId = x.nodeId := by
  obtain ⟨i, hi, rfl⟩ := getElem_of_mem hx
  have hi' : i < gs.length := h.length_eq ▸ hi
  exact (List.Forall₂.get h hi' hi).origin (hgs _ (getElem_mem hi'))

theorem visit_of_picks (hrels : r.relations.lookup f = some rels)
    (w : Walk ClientId (Id × SubscriptionOptions))
    (hkeys : gs.NodupKeys) (hgs : ∀ e ∈ gs, r.Lists thisId f e)
    (hall : ∀ g c id opts, r.Eligible thisId f c id opts → opts.sharedGroup = some g → g ∈ gs.keys)
    (hpicked : List.Forall₂ (Picks f) gs picked) :
    r.Visit thisId f (direct thisId f (w.list rels) ++ picked) := by
  have hgroups := map_sharedGroup_of_picks hpicked hgs
  have hdirect {x : Contribution} (hx : x ∈ direct thisId f (w.list rels)) :
      x.opts.sharedGroup = none := by
    obtain ⟨c, id, opts, -, hg, rfl⟩ := (mem_direct hrels).1 hx
    exact hg
  have hnodup : (picked.map fun x => x.opts.sharedGroup).Nodup := by
    rw [hgroups]
    exact hkeys.map (Option.some_injective _)
  have horigin : ∀ x ∈ direct thisId f (w.list rels) ++ picked, x.topicFilter = f ∧
      x.group.map Prod.fst = x.opts.sharedGroup ∧
        ∃ id, r.Eligible thisId f x.clientId id x.opts ∧ id.nodeId = x.nodeId := by
    intro x hx
    rcases mem_append.1 hx with hx | hx
    · obtain ⟨c, id, opts, hel, hg, rfl⟩ := (mem_direct hrels).1 hx
      exact ⟨rfl, hg.symm, id, hel, rfl⟩
    · exact origin_of_picks hpicked hgs hx
  -- a client determines the group, so that clients of different groups are different
  have hgroupOf : ∀ x ∈ direct thisId f (w.list rels) ++ picked,
      r.groupOf f x.clientId = x.opts.sharedGroup := fun x hx => by
    obtain ⟨-, -, id, hel, -⟩ := horigin x hx
    exact hel.groupOf
  refine ⟨horigin, ?_, ?_, ?_, ?_⟩
  · rw [map_append, nodup_append]
    refine ⟨?_, ?_, ?_⟩
    · rw [direct, map_map]
      exact (w.nodupKeys rels).sublist filter_sublist
    · refine List.Nodup.of_map (r.groupOf f) ?_
      have hmap : (picked.map Contribution.clientId).map (r.groupOf f) =
          picked.map fun x => x.opts.sharedGroup := by
        rw [map_map]
        exact map_congr_left fun x hx => hgroupOf x (mem_append_right _ hx)
      rwa [hmap]
    · rintro c hc c' hc' rfl
      obtain ⟨x, hx, rfl⟩ := mem_map.1 hc
      obtain ⟨y, hy, hxy⟩ := mem_map.1 hc'
      have hy' : y.opts.sharedGroup ∈ gs.keys.map some := hgroups ▸ mem_map_of_mem hy
      rw [← hgroupOf y (mem_append_right _ hy), hxy, hgroupOf x (mem_append_left _ hx),
        hdirect hx] at hy'
      simp at hy'
  · intro c id opts hel hg
    exact ⟨_, mem_append_left _ ((mem_direct hrels).2 ⟨c, id, opts, hel, hg, rfl⟩), rfl⟩
  · intro g c id opts hel hg
    have hmem : some g ∈ picked.map fun x => x.opts.sharedGroup := by
      rw [hgroups]
      exact mem_map_of_mem (hall g c id opts hel hg)
    obtain ⟨x, hx, hxg⟩ := mem_map.1 hmem
    exact ⟨x, mem_append_right _ hx, hxg⟩
  · intro g x hx y hy hxg hyg
    have hpick : ∀ z ∈ direct thisId f (w.list rels) ++ picked, z.opts.sharedGroup = some g →
        z ∈ picked := by
      intro z hz hzg
      refine (mem_append.1 hz).resolve_left fun hz' => ?_
      rw [hdirect hz'] at hzg
      cases hzg
    rw [inj_on_of_nodup_map hnodup (hpick x hx hxg) (hpick y hy hyg) (hxg.trans hyg.symm)]

theorem visit_nil (h : r.relations.lookup f = none) : r.Visit thisId f [] := by
  have hnone (c : ClientId) (id : Id) (opts : SubscriptionOptions) :
      ¬ r.Eligible thisId f c id opts := by
    rintro ⟨hsub, -⟩
    rw [subscription, h] at hsub
    cases hsub
  exact ⟨by simp, nodup_nil, fun c id opts hel => absurd hel (hnone c id opts),
    fun g c id opts hel => absurd hel (hnone c id opts), by simp⟩

theorem visitFilter_ok (henv : env.Chooses) {m : CollectorMap} {before : List Contribution}
    (h : m.Holds before) (s : σ) (item : Item Unit) :
    ∃ m' s' l, visitFilter env thisId topicName r (m, s) item = .ok (m', s') ∧
      m'.Holds (before ++ l) ∧ r.Visit thisId (Topic.toStr ⟨item.1⟩) l := by
  rw [visitFilter]
  generalize Topic.toStr ⟨item.1⟩ = f
  cases hrels : r.relations.lookup f with
  | none =>
    have hlist : (env.groups s f).list ∅ = [] := eq_nil_iff_forall_not_mem.2 fun e he => by
      simpa using (env.groups s f).mem_list.1 he
    refine ⟨m, s, [], ?_, by simpa using h, visit_nil hrels⟩
    dsimp only
    rw [hlist]
    rfl
  | some rels =>
    dsimp only
    have hvisited : Visited env thisId s f _ before ((env.rels f).list rels) := visited_foldl h _
    generalize ((env.rels f).list rels).foldl (visitSubscriber env thisId s f) (m, ∅) = acc
      at hvisited ⊢
    have hlookup {g : SharedGroup} {cands : List Candidate}
        (hmem : ⟨g, cands⟩ ∈ (env.groups s f).list acc.2) :
        cands = members env thisId s g ((env.rels f).list rels) := by
      have hg := hvisited.groups g
      rwa [(env.groups s f).mem_list.1 hmem] at hg
    have hne : ∀ e ∈ (env.groups s f).list acc.2, e.2 ≠ [] := fun e he hnil =>
      hvisited.nonempty e.1 (hnil ▸ (env.groups s f).mem_list.1 he)
    obtain ⟨m', s', picked, hok, hm', hpicked⟩ :=
      foldlM_visitGroup_ok thisId topicName henv hvisited.collectors s hne
    refine ⟨m', s', _, hok, by rwa [append_assoc] at hm',
      visit_of_picks hrels _ ((env.groups s f).nodupKeys acc.2) ?_ ?_ hpicked⟩
    · intro e he y hy
      rw [hlookup he] at hy
      obtain ⟨c, id, opts, hel, hg, rfl⟩ := (mem_members hrels).1 hy
      exact ⟨id, hel, hg, rfl⟩
    · intro g c id opts hel hg
      have hmem : _ ∈ members env thisId s g ((env.rels f).list rels) :=
        (mem_members hrels).2 ⟨c, id, opts, hel, hg, rfl⟩
      rw [← hvisited.groups g] at hmem
      cases hacc : acc.2.lookup g with
      | none =>
        rw [hacc] at hmem
        cases hmem
      | some cands =>
        exact mem_map.2 ⟨⟨g, cands⟩, (env.groups s f).mem_list.2 hacc, rfl⟩

theorem foldlM_visitFilter_ok (henv : env.Chooses) {m : CollectorMap} {before : List Contribution}
    (h : m.Holds before) (s : σ) (items : List (Item Unit)) :
    ∃ m' s' ls, items.foldlM (visitFilter env thisId topicName r) (m, s) = .ok (m', s') ∧
      m'.Holds (before ++ ls.flatten) ∧
        List.Forall₂ (fun item l => r.Visit thisId (Topic.toStr ⟨item.1⟩) l) items ls := by
  induction items generalizing m before s with
  | nil => exact ⟨m, s, [], rfl, by simpa using h, .nil⟩
  | cons item items ih =>
    obtain ⟨m₁, s₁, l, hok₁, hm₁, hl⟩ := visitFilter_ok henv h s item
    obtain ⟨m₂, s₂, ls, hok₂, hm₂, hls⟩ := ih hm₁ s₁
    refine ⟨m₂, s₂, l :: ls, ?_, by simpa using hm₂, .cons hl hls⟩
    rw [foldlM_cons, hok₁]
    exact hok₂

end Filters

end DefaultRouter

end FerroMq
