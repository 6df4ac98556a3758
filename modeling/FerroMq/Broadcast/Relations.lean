import FerroMq.Broadcast.Forward

/-!
# The relations of a node

What `matches` returns at a node, for any topic: one relation of an MQTT 3 subscription outside share groups for
each visit of its filter, and one relation of an MQTT 5 client for all its subscriptions, in the share group of
the first that is collected.
-/

namespace FerroMq

open Lib Codec DefaultRouter List

/-- The filter matches the topic of this name. -/
def Matching (topicName : String) (f : TopicFilter) : Prop :=
  ∃ topic, Topic.fromStr topicName = .ok topic ∧ FilterMatches f topic

def SubRelation.isOfV3 (f : TopicFilter) (c : ClientId) (e : SubRelation) : Bool :=
  e.opts.isV3 && (decide (e.topicFilter = f) && decide (e.clientId = c))

def SubRelation.isOfV5 (c : ClientId) (e : SubRelation) : Bool :=
  !e.opts.isV3 && decide (e.clientId = c)

namespace BroadcastServer

variable {σ : Type} (node : BroadcastServer σ) (thisId : Id) (topicName : String)

/-- An eligible subscription outside share groups. -/
def Subscribed (f : TopicFilter) (c : ClientId) (opts : SubscriptionOptions) : Prop :=
  Matching topicName f ∧ opts.sharedGroup = none ∧ ∃ id, node.router.Eligible thisId f c id opts

/-- An eligible member of a share group. -/
def Member (f : TopicFilter) (g : SharedGroup) (c : ClientId) : Prop :=
  Matching topicName f ∧ ∃ id opts, node.router.Eligible thisId f c id opts ∧ opts.sharedGroup = some g

def relations : List SubRelation :=
  match node.matches thisId topicName with
  | .ok (m, _) => relationsAt m node.id
  | .error _ => []

def visits : List TopicFilter :=
  match Topic.fromStr topicName with
  | .ok topic => node.router.visited topic
  | .error _ => []

variable {node thisId topicName}

variable {f : TopicFilter} {c : ClientId} {opts : SubscriptionOptions} {e : SubRelation}

theorem mem_visits : f ∈ node.visits topicName ↔ f ∈ node.router.relations ∧ Matching topicName f := by
  rw [visits, Matching]
  cases htopic : Topic.fromStr topicName with
  | error e =>
    refine iff_of_false (not_mem_nil) ?_
    rintro ⟨-, topic, h, -⟩
    exact nomatch h
  | ok topic =>
    have hpath : MultiLast topic.levels := Topic.Parsed.multiLast ⟨topicName, htopic⟩
    dsimp only
    rw [node.consistent.mem_visited hpath]
    refine and_congr_right fun _ => ⟨fun h => ⟨topic, rfl, h⟩, ?_⟩
    rintro ⟨topic', h, hmatch⟩
    rwa [Except.ok.inj h]

/-! ## What was collected -/

/-- Every contribution is that of an eligible subscription to a filter that was visited. -/
theorem origin_of_visits {r : DefaultRouter} {fs : List TopicFilter} {ls : List (List Contribution)}
    (h : List.Forall₂ (r.Visit thisId) fs ls) {x : Contribution} (hx : x ∈ ls.flatten) :
    x.topicFilter ∈ fs ∧ x.group.map Prod.fst = x.opts.sharedGroup ∧
      ∃ id, r.Eligible thisId x.topicFilter x.clientId id x.opts ∧ id.nodeId = x.nodeId := by
  induction h with
  | nil => exact nomatch hx
  | @cons f l fs ls hvisit _ ih =>
    rcases mem_append.1 hx with hx | hx
    · obtain ⟨rfl, hrest⟩ := hvisit.origin x hx
      exact ⟨mem_cons_self, hrest⟩
    · exact ⟨mem_cons_of_mem _ (ih hx).1, (ih hx).2⟩

theorem countP_of_visits {r : DefaultRouter} {fs : List TopicFilter} {ls : List (List Contribution)}
    (h : List.Forall₂ (r.Visit thisId) fs ls) {id : Id} (hel : r.Eligible thisId f c id opts)
    (hgroup : opts.sharedGroup = none) :
    ls.flatten.countP (fun x => decide (x.topicFilter = f) && decide (x.clientId = c)) =
      fs.count f := by
  induction h with
  | nil => rfl
  | @cons f' l fs ls hvisit _ ih =>
    rw [flatten_cons, countP_append, ih, count_cons, add_comm]
    refine congrArg _ ?_
    by_cases hf : f' = f
    · subst hf
      obtain ⟨x, hx, hxc⟩ := hvisit.direct c id opts hel hgroup
      rw [if_pos (beq_self_eq_true f')]
      refine countP_eq_one hvisit.nodup hx ?_ fun y hy hpy => ?_
      · simp [(hvisit.origin x hx).1, hxc]
      · simp only [Bool.and_eq_true, decide_eq_true_eq] at hpy
        rw [hpy.2, hxc]
    · rw [if_neg (by simpa using hf), countP_eq_zero]
      intro x hx hpx
      simp only [Bool.and_eq_true, decide_eq_true_eq] at hpx
      exact hf ((hvisit.origin x hx).1.symm.trans hpx.1)

/-! ## The map that is returned -/

theorem flatRelations_eq {w : Walk NodeId (List SubRelation)} {m : SubRelationsMap} {n : NodeId}
    (h : ∀ n' l, m.lookup n' = some l → n' = n) :
    flatRelations w m = (relationsAt m n).map (Prod.mk n) := by
  have hkeys : ∀ e ∈ w.list m, e.1 = n := fun e he => h e.1 e.2 (w.mem_list.1 he)
  have hlookup : m.lookup n = (w.list m).dlookup n := (w.dlookup_list m n).symm
  have hnodup := w.nodupKeys m
  rw [flatRelations, relationsAt, hlookup]
  generalize w.list m = l at hkeys hnodup ⊢
  rcases l with _ | ⟨e, _ | ⟨e', l⟩⟩
  · rfl
  · obtain ⟨n', l⟩ := e
    obtain rfl : n' = n := hkeys _ mem_cons_self
    rw [dlookup_cons_eq]
    exact append_nil _
  · have hne := (nodup_cons.1 hnodup).1
    rw [hkeys e mem_cons_self] at hne
    refine absurd (mem_cons.2 (Or.inl ?_)) hne
    exact (hkeys e' (mem_cons_of_mem _ mem_cons_self)).symm

theorem matches_eq (henv : node.env.Chooses) : ∃ m s ls v5s,
    node.matches thisId topicName = .ok (m, s) ∧
      flatRelations node.relationsOrder m = (node.relations thisId topicName).map (Prod.mk node.id) ∧
      List.Forall₂ (node.router.Visit thisId) (node.visits topicName) ls ∧
      node.relations thisId topicName = v3Entries ls.flatten ++ v5s ∧ Output ls.flatten v5s := by
  cases htopic : Topic.fromStr topicName with
  | error e =>
    have hmatches : node.matches thisId topicName = .ok (∅, node.state) := by
      rw [BroadcastServer.matches, DefaultRouter.matches, htopic]
      rfl
    have hrelations : node.relations thisId topicName = [] := by
      rw [relations, hmatches]
      rfl
    refine ⟨∅, node.state, [], [], hmatches, ?_, ?_, hrelations, output_nil⟩
    · rw [hrelations, flatRelations_eq (n := node.id)]
      · rfl
      · intro n l hl
        rw [Finmap.lookup_empty] at hl
        cases hl
    · rw [visits, htopic]
      exact .nil
  | ok topic =>
    obtain ⟨m, s, ls, hok, hm, hls⟩ := matches_ok htopic henv node.router thisId node.state
    have hvisits : node.visits topicName = node.router.visited topic := by rw [visits, htopic]
    have hmatches : node.matches thisId topicName = .ok (Map.insertAll ∅
        ((node.env.nodes.list m).map fun e => ⟨e.1, e.2.into (node.env.clients e.1)⟩), s) := by
      rw [BroadcastServer.matches, hok]
    have hown : ∀ x ∈ ls.flatten, x.nodeId = node.id := by
      intro x hx
      obtain ⟨-, -, id, hel, hnode⟩ := origin_of_visits hls hx
      rw [← hnode]
      exact node.own _ _ _ hel.1
    have hall : ls.flatten.filter (Contribution.isAtNode node.id) = ls.flatten :=
      filter_eq_self.2 fun x hx => decide_eq_true (hown x hx)
    obtain ⟨v5s, heq, hout⟩ := relationsAt_insertAll hm node.env.nodes node.env.clients node.id
    rw [hall] at heq hout
    have hrelations : node.relations thisId topicName = v3Entries ls.flatten ++ v5s := by
      rw [relations, hmatches]
      exact heq
    refine ⟨_, s, ls, v5s, hmatches, ?_, hvisits ▸ hls, hrelations, hout⟩
    rw [flatRelations_eq (n := node.id), heq, hrelations]
    intro n l hl
    rw [node.env.nodes.lookup_insertAll_map m fun n col => col.into (node.env.clients n)] at hl
    obtain ⟨col, hcol, -⟩ := Option.map_eq_some_iff.1 hl
    have hholds := hm n
    rw [hcol] at hholds
    obtain ⟨x, hx⟩ := exists_mem_of_ne_nil _ hholds.1
    obtain ⟨hxl, hnode⟩ := mem_filter.1 hx
    exact (of_decide_eq_true hnode).symm.trans (hown x hxl)

theorem relations_origin (henv : node.env.Chooses) (he : e ∈ node.relations thisId topicName) :
    Matching topicName e.topicFilter ∧ e.group.map Prod.fst = e.opts.sharedGroup ∧
      ∃ id, node.router.Eligible thisId e.topicFilter e.clientId id e.opts := by
  obtain ⟨m, s, ls, v5s, -, -, hls, hrelations, hout⟩ := matches_eq henv
  rw [hrelations] at he
  obtain ⟨x, hx, hf, hc, ho, hg⟩ : ∃ x ∈ ls.flatten, x.topicFilter = e.topicFilter ∧
      x.clientId = e.clientId ∧ x.opts = e.opts ∧ x.group = e.group := by
    rcases mem_append.1 he with he | he
    · obtain ⟨x, hx, rfl⟩ := mem_map.1 he
      exact ⟨x, (mem_filter.1 hx).1, rfl, rfl, rfl, rfl⟩
    · obtain ⟨x, hx, -, hc, hf, ho, hg⟩ := hout.exists_mem he
      exact ⟨x, hx, hf, hc, ho, hg⟩
  obtain ⟨hmem, hgroup, id, hel, -⟩ := origin_of_visits hls hx
  rw [hf] at hmem
  rw [hf, hc, ho] at hel
  rw [hg, ho] at hgroup
  exact ⟨(mem_visits.1 hmem).2, hgroup, id, hel⟩

theorem relation_of_subscribed (henv : node.env.Chooses) (h : node.Subscribed thisId topicName f c opts)
    (he : e ∈ node.relations thisId topicName) (hf : e.topicFilter = f) (hc : e.clientId = c) :
    e.group = none := by
  obtain ⟨-, hgroup, id, hel⟩ := h
  obtain ⟨-, hegroup, id', hel'⟩ := relations_origin henv he
  rw [hf, hc] at hel'
  rw [(hel'.unique hel).2, hgroup] at hegroup
  exact Option.map_eq_none_iff.1 hegroup

theorem countP_relations_v3 (henv : node.env.Chooses) (h : node.Subscribed thisId topicName f c opts)
    (hv3 : opts.isV3 = true) : (node.relations thisId topicName).countP (SubRelation.isOfV3 f c) =
      (node.visits topicName).count f := by
  obtain ⟨-, hgroup, id, hel⟩ := h
  obtain ⟨m, s, ls, v5s, -, -, hls, hrelations, hout⟩ := matches_eq henv
  have hv5s : v5s.countP (SubRelation.isOfV3 f c) = 0 :=
    countP_eq_zero.2 fun e he => by simp [SubRelation.isOfV3, hout.isV3_eq_false he]
  rw [← countP_of_visits hls hel hgroup, hrelations, countP_append, hv5s, add_zero,
    countP_map, countP_filter]
  refine countP_congr fun x hx => ?_
  simp only [Function.comp, SubRelation.isOfV3, Contribution.v3Relation, Bool.and_eq_true,
    decide_eq_true_eq]
  refine ⟨fun h => ⟨of_decide_eq_true h.1.2.1, of_decide_eq_true h.1.2.2⟩, ?_⟩
  rintro ⟨rfl, rfl⟩
  obtain ⟨-, -, id', hel', -⟩ := origin_of_visits hls hx
  rw [(hel'.unique hel).2]
  exact ⟨⟨hv3, decide_eq_true rfl, decide_eq_true rfl⟩, hv3⟩

theorem exists_relation_v5 (henv : node.env.Chooses) (h : node.Subscribed thisId topicName f c opts)
    (hv5 : opts.isV3 = false) : ∃ e ∈ node.relations thisId topicName, e.isOfV5 c = true := by
  obtain ⟨hmatch, hgroup, id, hel⟩ := h
  obtain ⟨m, s, ls, v5s, -, -, hls, hrelations, hout⟩ := matches_eq henv
  have hmem : f ∈ node.visits topicName := mem_visits.2 ⟨mem_of_subscription hel.1, hmatch⟩
  have hpos : 0 < ls.flatten.countP fun x => decide (x.topicFilter = f) && decide (x.clientId = c) := by
    rw [countP_of_visits hls hel hgroup]
    exact count_pos_iff.2 hmem
  obtain ⟨x, hx, hpx⟩ := countP_pos_iff.1 hpos
  simp only [Bool.and_eq_true, decide_eq_true_eq] at hpx
  obtain ⟨rfl, rfl⟩ := hpx
  obtain ⟨-, -, id', hel', -⟩ := origin_of_visits hls hx
  have hxv5 : x.opts.isV3 = false := by rw [(hel'.unique hel).2, hv5]
  obtain ⟨e, he, hc⟩ := hout.mem x.clientId
    (ne_nil_of_mem (mem_filter_isOfClient.2 ⟨hx, hxv5, rfl⟩))
  rw [hrelations]
  refine ⟨e, mem_append_right _ he, ?_⟩
  rw [SubRelation.isOfV5, hout.isV3_eq_false he, decide_eq_true hc]
  rfl

theorem countP_relations_v5 (henv : node.env.Chooses) {c : ClientId}
    (he : e ∈ node.relations thisId topicName) (hv5 : e.isOfV5 c = true) :
    (node.relations thisId topicName).countP (SubRelation.isOfV5 c) = 1 := by
  obtain ⟨m, s, ls, v5s, -, -, hls, hrelations, hout⟩ := matches_eq henv
  obtain ⟨hnot, rfl⟩ : e.opts.isV3 = false ∧ e.clientId = c := by simpa [SubRelation.isOfV5] using hv5
  rw [hrelations] at he ⊢
  have he' : e ∈ v5s := (mem_append.1 he).resolve_left fun he' => by
    rw [isV3_of_mem_v3Entries he'] at hnot
    exact nomatch hnot
  obtain ⟨x, hx, hxv5, hc, -⟩ := hout.exists_mem he'
  rw [← hc]
  exact hout.countP_v5 hx hxv5

end BroadcastServer

end FerroMq
