import FerroMq.Broadcast.Relations

/-!
# Who gets a message in a broadcast cluster

`Delivered` says what a publisher may expect.  A subscriber outside share groups that cannot be reached stops
the message at the publisher's node for all other nodes and share groups, and at another node for its members of
share groups; and an MQTT 5 client has one relation for all its subscriptions.  `Undisturbed` is when this does
no harm (`delivered_iff`).
-/

namespace FerroMq

open Lib Codec DefaultRouter List

/-! ## The three phases -/

section

variable {channel : ClientId → Option Bool} {publish : Publish}

theorem sent_forwardsTo (channel : ClientId → Option Bool) (publish : Publish)
    (es : List SubRelation) :
    (forwardsTo channel publish es).sent =
      (es.filter fun e => channel e.clientId = some true).map fun e => (e, e.forwarded publish) := by
  induction es with
  | nil => rfl
  | cons e es ih =>
    rw [forwardsTo]
    rcases hchannel : channel e.clientId with _ | _ | _
    all_goals simp [hchannel, ih]

theorem dropped_forwardsTo_eq_nil_iff {es : List SubRelation} :
    (forwardsTo channel publish es).dropped = [] ↔ ∀ e ∈ es, channel e.clientId = some true := by
  induction es with
  | nil => exact iff_of_true rfl fun _ h => nomatch h
  | cons e es ih =>
    rw [forwardsTo, forall_mem_cons]
    rcases hchannel : channel e.clientId with _ | _ | _
    · simp
    · simp
    · simpa using ih

end

namespace BroadcastServer

variable {σ : Type} {node own : BroadcastServer σ} {others : List (BroadcastServer σ)} {thisId : Id}
  {publish : Publish} {topicName : String}

/-- All subscribers outside share groups can be reached. -/
def Reaches (node : BroadcastServer σ) (thisId : Id) (topicName : String) : Prop :=
  ∀ e ∈ node.relations thisId topicName, e.group = none → node.channel e.clientId = some true

instance : Decidable (node.Reaches thisId topicName) :=
  inferInstanceAs (Decidable
    (∀ e ∈ node.relations thisId topicName, e.group = none → node.channel e.clientId = some true))

def sendings (node : BroadcastServer σ) (thisId : Id) (publish : Publish) :
    List (NodeId × SubRelation × Publish) :=
  ((node.relations thisId publish.topic).filter fun e =>
    e.group.isNone && decide (node.channel e.clientId = some true)).map fun e =>
      (node.id, e, e.forwarded publish)

def offers (node : BroadcastServer σ) (thisId : Id) (topicName : String) :
    List (NodeId × SubRelation) :=
  if node.Reaches thisId topicName then
    ((node.relations thisId topicName).filter fun e => e.group.isSome).map (Prod.mk node.id)
  else []

theorem directRelations_map (n : NodeId) (l : List SubRelation) :
    directRelations (l.map (Prod.mk n)) = l.filter fun e => e.group.isNone := by
  rw [directRelations, filter_map, map_map]
  exact map_id _

theorem sharedRelations_map (n : NodeId) (l : List SubRelation) :
    sharedRelations (l.map (Prod.mk n)) = (l.filter fun e => e.group.isSome).map (Prod.mk n) := by
  rw [sharedRelations, filter_map]
  rfl

theorem dropped_eq_nil_iff : (forwardsTo node.channel publish
    ((node.relations thisId topicName).filter fun e => e.group.isNone)).dropped = [] ↔
      node.Reaches thisId topicName := by
  rw [dropped_forwardsTo_eq_nil_iff]
  simp only [mem_filter, Option.isNone_iff_eq_none, and_imp]
  rfl

theorem sent_eq_sendings : (forwardsTo node.channel publish
    ((node.relations thisId publish.topic).filter fun e => e.group.isNone)).sent.map (Prod.mk node.id) =
      node.sendings thisId publish := by
  rw [sent_forwardsTo, filter_filter, map_map, sendings]
  refine congrArg _ (filter_congr fun e _ => ?_)
  exact Bool.and_comm _ _

theorem forwards_eq (henv : node.env.Chooses) :
    ((node.forwards thisId publish).1.map ForwardsReply.shared).getD [] =
        node.offers thisId publish.topic ∧
      (node.forwards thisId publish).2.map (Prod.mk node.id) = node.sendings thisId publish := by
  obtain ⟨m, s, ls, v5s, hmatches, hflat, -⟩ := matches_eq henv
  rw [forwards, hmatches]
  dsimp only
  rw [hflat, directRelations_map, sharedRelations_map, offers]
  by_cases hreaches : node.Reaches thisId publish.topic
  · rw [if_pos (dropped_eq_nil_iff.2 hreaches), if_pos hreaches]
    exact ⟨rfl, sent_eq_sendings⟩
  · rw [if_neg fun h => hreaches (dropped_eq_nil_iff.1 h), if_neg hreaches]
    exact ⟨rfl, sent_eq_sendings⟩

/-! ## The choice -/

def Elects (e : Σ _ : TopicFilter × SharedGroup, List Candidate) (x : Chosen) : Prop :=
  (x.relation.topicFilter, x.group) = e.1 ∧
    ∃ y ∈ e.2, y.nodeId = x.nodeId ∧ y.clientId = x.relation.clientId

theorem foldlM_choose_ok (henv : own.env.Chooses)
    {l : List (Σ _ : TopicFilter × SharedGroup, List Candidate)} (hl : ∀ e ∈ l, e.2 ≠ [])
    (acc : List Chosen) (s : σ) :
    ∃ chosen s', l.foldlM (own.choose thisId topicName) (acc, s) = .ok (acc ++ chosen, s') ∧
      List.Forall₂ Elects l chosen := by
  induction l generalizing acc s with
  | nil => exact ⟨[], s, by rw [append_nil]; rfl, .nil⟩
  | cons e l ih =>
    obtain ⟨idx, isOnline, s₁, hchoice, hidx⟩ :=
      henv s e.1.2 thisId topicName e.2 (hl e mem_cons_self)
    let x : Chosen := ⟨e.1.2, e.2[idx].nodeId,
      ⟨e.1.1, e.2[idx].clientId, e.2[idx].opts, e.2[idx].subIds, none⟩⟩
    have hchoose : own.choose thisId topicName (acc, s) e = .ok (acc ++ [x], s₁) := by
      simp only [choose, hchoice, getElem?_eq_getElem hidx, x]
    obtain ⟨chosen, s', hok, hchosen⟩ :=
      ih (fun e' he' => hl e' (mem_cons_of_mem _ he')) (acc ++ [x]) s₁
    refine ⟨x :: chosen, s', ?_, .cons ⟨rfl, e.2[idx], getElem_mem hidx, rfl, rfl⟩ hchosen⟩
    rw [foldlM_cons, hchoose]
    refine hok.trans ?_
    rw [append_assoc]
    rfl

theorem keys_of_elects {l : List (Σ _ : TopicFilter × SharedGroup, List Candidate)}
    {chosen : List Chosen} (h : List.Forall₂ Elects l chosen) :
    chosen.map (fun x => (x.relation.topicFilter, x.group)) = l.keys := by
  induction h with
  | nil => rfl
  | cons hx _ ih =>
    rw [map_cons, keys_cons, ih, hx.1]

theorem sharedCandidate_eq_some {y : NodeId × SubRelation} {k : TopicFilter × SharedGroup}
    {a : Candidate} (h : sharedCandidate y = some (k, a)) :
    y.2.topicFilter = k.1 ∧ y.2.group.map Prod.fst = some k.2 ∧ y.1 = a.nodeId ∧
      y.2.clientId = a.clientId := by
  obtain ⟨g, hg, heq⟩ := Option.map_eq_some_iff.1 h
  obtain ⟨rfl, rfl⟩ := Prod.mk.inj heq
  exact ⟨rfl, by rw [hg]; rfl, rfl, rfl⟩

/-- One member is chosen for every filter and share group that is offered. -/
structure ChosenFrom (l : List (NodeId × SubRelation)) (chosen : List Chosen) : Prop where
  nodup : (chosen.map fun x => (x.relation.topicFilter, x.group)).Nodup
  origin : ∀ x ∈ chosen, ∃ y ∈ l, y.1 = x.nodeId ∧ y.2.topicFilter = x.relation.topicFilter ∧
    y.2.group.map Prod.fst = some x.group ∧ y.2.clientId = x.relation.clientId
  all : ∀ y ∈ l, ∀ g, y.2.group.map Prod.fst = some g →
    ∃ x ∈ chosen, x.relation.topicFilter = y.2.topicFilter ∧ x.group = g

theorem chosenFrom_nil : ChosenFrom [] [] :=
  ⟨nodup_nil, fun _ hx => (nomatch hx), fun _ hy => (nomatch hy)⟩

theorem chosenFrom_of_elects {l : List (NodeId × SubRelation)}
    (w : Walk (TopicFilter × SharedGroup) (List Candidate)) {chosen : List Chosen}
    (h : List.Forall₂ Elects (w.list (sharedSubGroups l)) chosen) : ChosenFrom l chosen := by
  have hkeys := keys_of_elects h
  refine ⟨hkeys ▸ w.nodupKeys _, fun x hx => ?_, fun y hy g hg => ?_⟩
  · obtain ⟨i, hi, rfl⟩ := getElem_of_mem hx
    have hi' : i < (w.list (sharedSubGroups l)).length := by rwa [h.length_eq]
    obtain ⟨hkey, a, ha, hnode, hclient⟩ := List.Forall₂.get h hi' hi
    have hlookup := (Map.lookup_pushAll_eq_some (w.mem_list.1 (getElem_mem hi'))).2 a
    obtain ⟨y, hy, hcandidate⟩ := mem_filterMap.1 (hlookup.1 ha)
    obtain ⟨hf, hg, hn, hc⟩ := sharedCandidate_eq_some hcandidate
    rw [← hkey] at hf hg
    exact ⟨y, hy, hn.trans hnode, hf, hg, hc.trans hclient⟩
  · obtain ⟨⟨g', isOnline, cids⟩, hgroup, rfl⟩ := Option.map_eq_some_iff.1 hg
    have hmem : ((y.2.topicFilter, g'), _) ∈ l.filterMap sharedCandidate :=
      mem_filterMap.2 ⟨y, hy, by rw [sharedCandidate, hgroup]; rfl⟩
    obtain ⟨as, has⟩ := Map.exists_lookup_pushAll hmem
    have hkey : (y.2.topicFilter, g') ∈ (w.list (sharedSubGroups l)).keys :=
      mem_keys_of_mem (w.mem_list.2 has)
    rw [← hkeys] at hkey
    obtain ⟨x, hx, heq⟩ := mem_map.1 hkey
    exact ⟨x, hx, (Prod.mk.inj heq).1, (Prod.mk.inj heq).2⟩

/-! ## The whole call -/

def audience (own : BroadcastServer σ) (others : List (BroadcastServer σ)) (thisId : Id)
    (topicName : String) : List (BroadcastServer σ) :=
  own :: if own.Reaches thisId topicName then others else []

/-- What is sent, and who is chosen. -/
structure IsOutcome (own : BroadcastServer σ) (others : List (BroadcastServer σ)) (thisId : Id)
    (publish : Publish) (outcome : Outcome) : Prop where
  direct : outcome.direct = (audience own others thisId publish.topic).flatMap fun node =>
    node.sendings thisId publish
  chosen : ChosenFrom ((audience own others thisId publish.topic).flatMap fun node =>
    node.offers thisId publish.topic) outcome.chosen
  shared : outcome.shared = (own :: others).flatMap fun node =>
    node.forwardsChosen publish outcome.chosen

theorem forwardToSubscriptions_ok (henv : ∀ node ∈ own :: others, node.env.Chooses)
    (groupsOrder : Walk (TopicFilter × SharedGroup) (List Candidate)) (thisId : Id)
    (publish : Publish) : ∃ outcome,
      forwardToSubscriptions own others groupsOrder thisId publish = .ok outcome ∧
        IsOutcome own others thisId publish outcome := by
  obtain ⟨m, s, ls, v5s, hmatches, hflat, -⟩ := matches_eq (henv own mem_cons_self)
  rw [forwardToSubscriptions, hmatches]
  dsimp only [bind, Except.bind]
  rw [hflat, directRelations_map, sharedRelations_map]
  by_cases hreaches : own.Reaches thisId publish.topic
  · have haudience : audience own others thisId publish.topic = own :: others := by
      rw [audience, if_pos hreaches]
    rw [if_neg (not_not.2 (dropped_eq_nil_iff.2 hreaches))]
    have hshared : (own :: others).flatMap (fun node => node.offers thisId publish.topic) =
        ((own.relations thisId publish.topic).filter fun e => e.group.isSome).map (Prod.mk own.id) ++
          (others.map fun node => (node.id, node.forwards thisId publish)).flatMap fun r =>
            (r.2.1.map ForwardsReply.shared).getD [] := by
      rw [flatMap_cons, offers, if_pos hreaches, flatMap_map]
      refine congrArg _ (flatMap_congr fun node hnode => ?_)
      exact (forwards_eq (henv node (mem_cons_of_mem _ hnode))).1.symm
    have hdirect : (own :: others).flatMap (fun node => node.sendings thisId publish) =
        (forwardsTo own.channel publish ((own.relations thisId publish.topic).filter fun e =>
          e.group.isNone)).sent.map (Prod.mk own.id) ++
          (others.map fun node => (node.id, node.forwards thisId publish)).flatMap fun r =>
            r.2.2.map (Prod.mk r.1) := by
      rw [flatMap_cons, sent_eq_sendings, flatMap_map]
      refine congrArg _ (flatMap_congr fun node hnode => ?_)
      exact (forwards_eq (henv node (mem_cons_of_mem _ hnode))).2.symm
    rw [← hshared]
    obtain ⟨chosen, s', hok, hchosen⟩ := foldlM_choose_ok (henv own mem_cons_self)
      (l := groupsOrder.list (sharedSubGroups _))
      (fun e he => (Map.lookup_pushAll_eq_some (groupsOrder.mem_list.1 he)).1) [] s
    rw [hok]
    refine ⟨_, rfl, ?_, ?_, rfl⟩
    · rw [haudience, hdirect]
    · rw [haudience]
      exact chosenFrom_of_elects groupsOrder hchosen
  · have haudience : audience own others thisId publish.topic = [own] := by
      rw [audience, if_neg hreaches]
    rw [if_pos fun h => hreaches (dropped_eq_nil_iff.1 h)]
    refine ⟨_, rfl, ?_, ?_, ?_⟩
    · rw [haudience, sent_eq_sendings, flatMap_singleton]
    · rw [haudience, flatMap_singleton, offers, if_neg hreaches]
      exact chosenFrom_nil
    · exact (flatMap_eq_nil_iff.2 fun node _ => rfl).symm

end BroadcastServer

/-! ## Delivery -/

def Outcome.sentAt (outcome : Outcome) (n : NodeId) (p : SubRelation → Bool) : ℕ :=
  (outcome.direct.filter fun x => x.1 = n).countP fun x => p x.2.1

namespace BroadcastServer

variable {σ : Type} {node own : BroadcastServer σ} {others : List (BroadcastServer σ)} {thisId : Id}
  {publish : Publish} {outcome : Outcome} {f : TopicFilter} {c : ClientId}
  {opts : SubscriptionOptions}

/-- Every session with an open channel gets the message once for each of its relations outside share
groups, and one member is chosen from every share group. -/
structure Delivered (nodes : List (BroadcastServer σ)) (thisId : Id) (publish : Publish)
    (outcome : Outcome) : Prop where
  v3 : ∀ node ∈ nodes, ∀ f c opts, node.Subscribed thisId publish.topic f c opts →
    opts.isV3 = true → node.channel c = some true →
      outcome.sentAt node.id (SubRelation.isOfV3 f c) = 1
  v5 : ∀ node ∈ nodes, ∀ f c opts, node.Subscribed thisId publish.topic f c opts →
    opts.isV3 = false → node.channel c = some true →
      outcome.sentAt node.id (SubRelation.isOfV5 c) = 1
  message : ∀ x ∈ outcome.direct, x.2.2 = x.2.1.forwarded publish
  chosen : ∀ f g, (∃ node ∈ nodes, ∃ c, node.Member thisId publish.topic f g c) →
    outcome.chosen.countP (fun x => decide ((x.relation.topicFilter, x.group) = (f, g))) = 1
  member : ∀ x ∈ outcome.chosen, ∃ node ∈ nodes, node.id = x.nodeId ∧
    node.Member thisId publish.topic x.relation.topicFilter x.group x.relation.clientId
  shared : ∀ node ∈ nodes, outcome.shared.filter (fun y => y.1 = node.id) =
    (outcome.chosen.filter fun x => decide (node.channel x.relation.clientId = some true) &&
      decide (x.nodeId = node.id)).map fun x => (node.id, x.relation, x.relation.forwarded publish)

/-- Nothing prevents a delivery. -/
structure Undisturbed (own : BroadcastServer σ) (others : List (BroadcastServer σ)) (thisId : Id)
    (topicName : String) : Prop where
  /-- All subscribers outside share groups at the node of the publisher can be reached, or there is
  nobody else to reach. -/
  reached : own.Reaches thisId topicName ∨
    (∀ node ∈ others, ∀ f c opts, node.Subscribed thisId topicName f c opts →
      node.channel c ≠ some true) ∧
    ∀ node ∈ own :: others, ∀ f g c, ¬ node.Member thisId topicName f g c
  /-- The filter of a subscription is visited once. -/
  once : ∀ node ∈ own :: others, ∀ f c opts, node.Subscribed thisId topicName f c opts →
    opts.isV3 = true → node.channel c = some true → (node.visits topicName).count f = 1
  /-- The relation of a client of MQTT 5 that has a subscription outside share groups is not in a share
  group. -/
  unmixed : ∀ node ∈ own :: others, ∀ f c opts, node.Subscribed thisId topicName f c opts →
    opts.isV3 = false → node.channel c = some true →
      ∀ e ∈ node.relations thisId topicName, e.isOfV5 c = true → e.group = none
  /-- For every share group some node has a relation in it, and reaches all its subscribers outside
  share groups. -/
  offered : ∀ f g, (∃ node ∈ own :: others, ∃ c, node.Member thisId topicName f g c) →
    ∃ node ∈ own :: others, node.Reaches thisId topicName ∧
      ∃ e ∈ node.relations thisId topicName, e.topicFilter = f ∧ e.group.map Prod.fst = some g

theorem fst_of_mem_sendings {x : NodeId × SubRelation × Publish}
    (h : x ∈ node.sendings thisId publish) : x.1 = node.id := by
  obtain ⟨e, -, rfl⟩ := mem_map.1 h
  rfl

theorem countP_sendings (p : SubRelation → Bool) :
    (node.sendings thisId publish).countP (fun x => p x.2.1) =
      (node.relations thisId publish.topic).countP fun e =>
        p e && (e.group.isNone && decide (node.channel e.clientId = some true)) := by
  rw [sendings, countP_map, countP_filter]
  rfl

theorem audience_sublist (own : BroadcastServer σ) (others : List (BroadcastServer σ)) (thisId : Id)
    (topicName : String) : (audience own others thisId topicName).Sublist (own :: others) := by
  rw [audience]
  split_ifs
  · exact List.Sublist.refl _
  · exact (nil_sublist others).cons_cons own

variable {topicName : String} {chosen : List Chosen}

theorem mem_audience_of_reaches (h : own.Reaches thisId topicName)
    (hnode : node ∈ own :: others) : node ∈ audience own others thisId topicName := by
  rwa [audience, if_pos h]

namespace IsOutcome

variable (h : IsOutcome own others thisId publish outcome)
  (hids : ((own :: others).map BroadcastServer.id).Nodup)

include h hids

theorem sentAt_audience (hnode : node ∈ audience own others thisId publish.topic)
    (p : SubRelation → Bool) :
    outcome.sentAt node.id p = (node.relations thisId publish.topic).countP fun e =>
      p e && (e.group.isNone && decide (node.channel e.clientId = some true)) := by
  have hnodup := hids.sublist ((audience_sublist own others thisId publish.topic).map id)
  rw [Outcome.sentAt, h.direct, filter_flatMap_key hnodup (fun _ _ => fst_of_mem_sendings) hnode,
    countP_sendings]

/-- Nothing is sent at the other nodes if a subscriber at the own one cannot be reached. -/
theorem sentAt_others (hreaches : ¬ own.Reaches thisId publish.topic) (hnode : node ∈ others)
    (p : SubRelation → Bool) : outcome.sentAt node.id p = 0 := by
  have hne : own.id ≠ node.id := by
    rintro heq
    rw [map_cons, nodup_cons, heq] at hids
    exact hids.1 (mem_map_of_mem hnode)
  have hnil : outcome.direct.filter (fun x => x.1 = node.id) = [] := by
    rw [h.direct, audience, if_neg hreaches, flatMap_singleton]
    refine filter_eq_nil_iff.2 fun x hx heq => hne ?_
    rw [← fst_of_mem_sendings hx, of_decide_eq_true heq]
  rw [Outcome.sentAt, hnil, countP_nil]

theorem mem_audience_of_sentAt {p : SubRelation → Bool} (hsent : outcome.sentAt node.id p = 1)
    (hnode : node ∈ own :: others) : node ∈ audience own others thisId publish.topic := by
  by_cases hreaches : own.Reaches thisId publish.topic
  · exact mem_audience_of_reaches hreaches hnode
  · rcases mem_cons.1 hnode with rfl | hnode
    · exact mem_cons_self
    · rw [h.sentAt_others hids hreaches hnode] at hsent
      exact nomatch hsent

theorem sentAt_v3 (henv : node.env.Chooses) (hnode : node ∈ audience own others thisId publish.topic)
    (hsub : node.Subscribed thisId publish.topic f c opts) (hv3 : opts.isV3 = true)
    (hopen : node.channel c = some true) :
    outcome.sentAt node.id (SubRelation.isOfV3 f c) = (node.visits publish.topic).count f := by
  rw [h.sentAt_audience hids hnode, ← countP_relations_v3 henv hsub hv3]
  refine countP_congr fun e he => ?_
  rw [Bool.and_eq_true]
  refine and_iff_left_of_imp fun hp => ?_
  simp only [SubRelation.isOfV3, Bool.and_eq_true, decide_eq_true_eq] at hp
  rw [relation_of_subscribed henv hsub he hp.2.1 hp.2.2, hp.2.2, hopen]
  rfl

theorem sentAt_v5 (henv : node.env.Chooses) (hnode : node ∈ audience own others thisId publish.topic)
    (hsub : node.Subscribed thisId publish.topic f c opts) (hv5 : opts.isV3 = false)
    (hopen : node.channel c = some true) :
    outcome.sentAt node.id (SubRelation.isOfV5 c) = 1 ↔
      ∀ e ∈ node.relations thisId publish.topic, e.isOfV5 c = true → e.group = none := by
  obtain ⟨e, he, hpe⟩ := exists_relation_v5 henv hsub hv5
  have hone := countP_relations_v5 henv he hpe
  rw [h.sentAt_audience hids hnode]
  constructor
  · intro hcount e' he' hpe'
    obtain ⟨e'', he'', hpe''⟩ := countP_pos_iff.1 (hcount ▸ Nat.one_pos)
    rw [Bool.and_eq_true, Bool.and_eq_true] at hpe''
    obtain rfl := eq_of_countP_le_one hone.le he' he'' hpe' hpe''.1
    exact Option.isNone_iff_eq_none.1 hpe''.2.1
  · intro hnone
    rw [← hone]
    refine countP_congr fun e' he' => ?_
    rw [Bool.and_eq_true]
    refine and_iff_left_of_imp fun hp => ?_
    have hc : e'.clientId = c := of_decide_eq_true (Bool.and_eq_true _ _ ▸ hp).2
    rw [hnone e' he' hp, hc, hopen]
    rfl

end IsOutcome

theorem mem_offers {n : NodeId} {e : SubRelation} :
    (n, e) ∈ node.offers thisId topicName ↔ node.Reaches thisId topicName ∧
      e ∈ node.relations thisId topicName ∧ e.group.isSome = true ∧ n = node.id := by
  rw [offers]
  split_ifs with hreaches
  · refine ⟨fun h => ?_, fun ⟨_, he, hgroup, hn⟩ => ?_⟩
    · obtain ⟨e', he', heq⟩ := mem_map.1 h
      obtain ⟨rfl, rfl⟩ := Prod.mk.inj heq
      exact ⟨hreaches, (mem_filter.1 he').1, (mem_filter.1 he').2, rfl⟩
    · exact mem_map.2 ⟨e, mem_filter.2 ⟨he, hgroup⟩, by rw [hn]⟩
  · exact iff_of_false not_mem_nil fun h => hreaches h.1

theorem countP_chosen_iff {l : List (NodeId × SubRelation)}
    (h : ChosenFrom l chosen) (f : TopicFilter) (g : SharedGroup) :
    chosen.countP (fun x => decide ((x.relation.topicFilter, x.group) = (f, g))) = 1 ↔
      ∃ y ∈ l, y.2.topicFilter = f ∧ y.2.group.map Prod.fst = some g := by
  constructor
  · intro hcount
    obtain ⟨x, hx, hkey⟩ := countP_pos_iff.1 (hcount ▸ Nat.one_pos)
    obtain ⟨rfl, rfl⟩ := Prod.mk.inj (of_decide_eq_true hkey)
    obtain ⟨y, hy, -, hf, hg, -⟩ := h.origin x hx
    exact ⟨y, hy, hf, hg⟩
  · rintro ⟨y, hy, rfl, hg⟩
    obtain ⟨x, hx, hf, rfl⟩ := h.all y hy g hg
    refine countP_eq_one h.nodup hx (decide_eq_true ?_) fun x' _ hkey => ?_
    · rw [hf]
    · rw [of_decide_eq_true hkey, hf]

theorem member_of_chosen (henv : ∀ node ∈ own :: others, node.env.Chooses)
    (h : ChosenFrom ((audience own others thisId topicName).flatMap
      fun node => node.offers thisId topicName) chosen) {x : Chosen} (hx : x ∈ chosen) :
    ∃ node ∈ own :: others, node.id = x.nodeId ∧
      node.Member thisId topicName x.relation.topicFilter x.group x.relation.clientId := by
  obtain ⟨⟨n, e⟩, hy, hn, hf, hg, hc⟩ := h.origin x hx
  obtain ⟨node, hnode, hoffer⟩ := mem_flatMap.1 hy
  obtain ⟨-, he, -, rfl⟩ := mem_offers.1 hoffer
  have hmem : node ∈ own :: others := (audience_sublist _ _ _ _).subset hnode
  obtain ⟨hmatch, hgroup, id, hel⟩ := relations_origin (henv node hmem) he
  rw [hf] at hmatch hel
  rw [hc] at hel
  exact ⟨node, hmem, hn, hmatch, id, e.opts, hel, hgroup ▸ hg⟩

theorem fst_of_mem_forwardsChosen {x : NodeId × SubRelation × Publish}
    (h : x ∈ node.forwardsChosen publish chosen) : x.1 = node.id := by
  obtain ⟨y, -, rfl⟩ := mem_map.1 h
  rfl

theorem forwardsChosen_eq (chosen : List Chosen) :
    node.forwardsChosen publish chosen =
      (chosen.filter fun x => decide (node.channel x.relation.clientId = some true) &&
        decide (x.nodeId = node.id)).map fun x =>
          (node.id, x.relation, x.relation.forwarded publish) := by
  rw [forwardsChosen, sent_forwardsTo, filter_map, filter_filter, map_map, map_map]
  rfl

variable (h : IsOutcome own others thisId publish outcome) (hids : ((own :: others).map id).Nodup)
  (henv : ∀ node ∈ own :: others, node.env.Chooses)

include h hids henv in
theorem IsOutcome.undisturbed (hdelivered : Delivered (own :: others) thisId publish outcome) :
    Undisturbed own others thisId publish.topic where
  reached := by
    by_cases hreaches : own.Reaches thisId publish.topic
    · exact .inl hreaches
    · have hnot (p : SubRelation → Bool) {node : BroadcastServer σ} (hnode : node ∈ others) :
          outcome.sentAt node.id p ≠ 1 := by
        rw [h.sentAt_others hids hreaches hnode]
        exact Nat.zero_ne_one
      refine .inr ⟨fun node hnode f c opts hsub hopen => ?_, fun node hnode f g c hmember => ?_⟩
      · have hmem := mem_cons_of_mem own hnode
        cases hv : opts.isV3 with
        | true => exact hnot _ hnode (hdelivered.v3 node hmem f c opts hsub hv hopen)
        | false => exact hnot _ hnode (hdelivered.v5 node hmem f c opts hsub hv hopen)
      · have hone := hdelivered.chosen f g ⟨node, hnode, c, hmember⟩
        obtain ⟨y, hy, -⟩ := (countP_chosen_iff h.chosen f g).1 hone
        rw [audience, if_neg hreaches, flatMap_singleton] at hy
        exact hreaches (mem_offers.1 hy).1
  once node hnode f c opts hsub hv3 hopen := by
    have hone := hdelivered.v3 node hnode f c opts hsub hv3 hopen
    have hmem := h.mem_audience_of_sentAt hids hone hnode
    rwa [h.sentAt_v3 hids (henv node hnode) hmem hsub hv3 hopen] at hone
  unmixed node hnode f c opts hsub hv5 hopen := by
    have hone := hdelivered.v5 node hnode f c opts hsub hv5 hopen
    have hmem := h.mem_audience_of_sentAt hids hone hnode
    exact (h.sentAt_v5 hids (henv node hnode) hmem hsub hv5 hopen).1 hone
  offered f g hmember := by
    obtain ⟨⟨n, e⟩, hy, hf, hg⟩ := (countP_chosen_iff h.chosen f g).1 (hdelivered.chosen f g hmember)
    obtain ⟨node, hnode, hoffer⟩ := mem_flatMap.1 hy
    obtain ⟨hreaches, he, -⟩ := mem_offers.1 hoffer
    exact ⟨node, (audience_sublist _ _ _ _).subset hnode, hreaches, e, he, hf, hg⟩

theorem Undisturbed.mem_audience (h : Undisturbed own others thisId topicName)
    (hnode : node ∈ own :: others) (hsub : node.Subscribed thisId topicName f c opts)
    (hopen : node.channel c = some true) : node ∈ audience own others thisId topicName := by
  rcases h.reached with hreaches | ⟨hothers, -⟩
  · exact mem_audience_of_reaches hreaches hnode
  · rcases mem_cons.1 hnode with rfl | hnode
    · exact mem_cons_self
    · exact absurd hopen (hothers node hnode f c opts hsub)

include h hids henv in
theorem IsOutcome.delivered (hun : Undisturbed own others thisId publish.topic) :
    Delivered (own :: others) thisId publish outcome where
  v3 node hnode f c opts hsub hv3 hopen := by
    rw [h.sentAt_v3 hids (henv node hnode) (hun.mem_audience hnode hsub hopen) hsub hv3 hopen]
    exact hun.once node hnode f c opts hsub hv3 hopen
  v5 node hnode f c opts hsub hv5 hopen := by
    rw [h.sentAt_v5 hids (henv node hnode) (hun.mem_audience hnode hsub hopen) hsub hv5 hopen]
    exact hun.unmixed node hnode f c opts hsub hv5 hopen
  message x hx := by
    rw [h.direct] at hx
    obtain ⟨node, -, hx⟩ := mem_flatMap.1 hx
    obtain ⟨e, -, rfl⟩ := mem_map.1 hx
    rfl
  chosen f g hmember := by
    obtain ⟨node, hnode, hreaches, e, he, hf, hg⟩ := hun.offered f g hmember
    have hown : own.Reaches thisId publish.topic := hun.reached.resolve_right fun hnone => by
      obtain ⟨node, hnode, c, hc⟩ := hmember
      exact hnone.2 node hnode f g c hc
    have hgroup : e.group.isSome = true := by
      rw [← Option.isSome_map, hg]
      rfl
    refine (countP_chosen_iff h.chosen f g).2 ⟨(node.id, e), mem_flatMap.2 ?_, hf, hg⟩
    exact ⟨node, mem_audience_of_reaches hown hnode, mem_offers.2 ⟨hreaches, he, hgroup, rfl⟩⟩
  member x hx := member_of_chosen henv h.chosen hx
  shared node hnode := by
    rw [h.shared, filter_flatMap_key hids (fun _ _ => fst_of_mem_forwardsChosen) hnode,
      forwardsChosen_eq]

def ofSubscriptions (n : NodeId) (subs : List (TopicFilter × ClientId × SubscriptionOptions))
    (channel : ClientId → Option Bool) : BroadcastServer Unit where
  id := n
  router := run {} (subs.map fun x => .add x.1 (Id.ofClient n x.2.1 0) x.2.2)
  env := Surroundings.first
  state := ()
  channel
  relationsOrder := @Walk.sorted _ _ nodeOrder
  consistent := consistent_run _
  own f c x h := by
    obtain ⟨-, -, hlast⟩ := (records_run _ f c x.1 x.2).1 h
    obtain ⟨y, -, heq⟩ := List.mem_map.1 hlast.mem
    injection heq with hf hid
    rw [← hid]
    rfl

def lexicographic : Walk (TopicFilter × SharedGroup) (List Candidate) :=
  @Walk.sorted _ _ (LinearOrder.lift' toLex toLex.injective)

theorem mem_of_subscription_ofSubscriptions {n : NodeId}
    {subs : List (TopicFilter × ClientId × SubscriptionOptions)} {channel : ClientId → Option Bool}
    {id : Id} (h : (ofSubscriptions n subs channel).router.subscription f c = some (id, opts)) :
    (f, c, opts) ∈ subs := by
  obtain ⟨-, hc, hlast⟩ := (records_run _ f c id opts).1 h
  obtain ⟨y, hy, heq⟩ := mem_map.1 hlast.mem
  injection heq with hf hid hopts
  rw [← hf, ← hc, ← hid, ← hopts]
  exact hy

theorem ofSubscriptions_chooses (n : NodeId)
    (subs : List (TopicFilter × ClientId × SubscriptionOptions)) (channel : ClientId → Option Bool) :
    (ofSubscriptions n subs channel).env.Chooses :=
  Surroundings.first_chooses

/-- A message is delivered to everybody, whoever cannot be reached, if and only if nothing prevents
it. -/
theorem delivered_iff (own : BroadcastServer σ) (others : List (BroadcastServer σ))
    (hids : ((own :: others).map BroadcastServer.id).Nodup)
    (henv : ∀ node ∈ own :: others, node.env.Chooses)
    (groupsOrder : Walk (TopicFilter × SharedGroup) (List Candidate)) (thisId : Id)
    (publish : Publish) : ∃ outcome,
      forwardToSubscriptions own others groupsOrder thisId publish = .ok outcome ∧
        (Delivered (own :: others) thisId publish outcome ↔
          Undisturbed own others thisId publish.topic) := by
  obtain ⟨outcome, hok, h⟩ := forwardToSubscriptions_ok henv groupsOrder thisId publish
  exact ⟨outcome, hok, h.undisturbed hids henv, h.delivered hids henv⟩

/-- A subscriber at the node of the publisher, and a member of a share group at another one. -/
theorem delivered_two_nodes :
    let own := ofSubscriptions 1 [("a", "x", default)] fun _ => some true
    let other := ofSubscriptions 2 [("a", "y", .v3 ⟨.atMostOnce, some "g", none⟩)] fun _ => some true
    let publish : Publish := ⟨false, false, .atMostOnce, "a", none, [], none⟩
    ∃ outcome,
      forwardToSubscriptions own [other] lexicographic (Id.ofClient 1 "p" 0) publish = .ok outcome ∧
        Delivered [own, other] (Id.ofClient 1 "p" 0) publish outcome := by
  intro own other publish
  obtain ⟨outcome, hok, hiff⟩ := delivered_iff own [other] (by decide)
    (by simp [own, other, ofSubscriptions_chooses]) lexicographic (Id.ofClient 1 "p" 0) publish
  refine ⟨outcome, hok, hiff.2 ?_⟩
  have hsubs : ∀ node ∈ [own, other], ∀ f c id opts, node.router.subscription f c = some (id, opts) →
      f = "a" ∧ opts.isV3 = true ∧ (opts.sharedGroup = none ∨ opts.sharedGroup = some "g") := by
    intro node hnode f c id opts h
    rcases mem_cons.1 hnode with rfl | hnode
    · have hmem := mem_of_subscription_ofSubscriptions h
      rw [mem_singleton] at hmem
      cases hmem
      exact ⟨rfl, rfl, .inl rfl⟩
    · rw [mem_singleton.1 hnode] at h
      have hmem := mem_of_subscription_ofSubscriptions h
      rw [mem_singleton] at hmem
      cases hmem
      exact ⟨rfl, rfl, .inr rfl⟩
  have hvisits : ∀ node ∈ [own, other], (node.visits "a").count "a" = 1 := by decide +kernel
  refine ⟨.inl (by decide +kernel), ?_, ?_, ?_⟩
  · rintro node hnode f c opts ⟨-, -, id, hel⟩ - -
    rw [(hsubs node hnode f c id opts hel.1).1]
    exact hvisits node hnode
  · rintro node hnode f c opts ⟨-, -, id, hel⟩ hv5
    rw [(hsubs node hnode f c id opts hel.1).2.1] at hv5
    exact nomatch hv5
  · rintro f g ⟨node, hnode, c, -, id, opts, hel, hgroup⟩
    obtain ⟨rfl, -, hg⟩ := hsubs node hnode f c id opts hel.1
    obtain rfl : g = "g" := by
      rw [hgroup] at hg
      exact hg.elim nofun Option.some.inj
    exact ⟨other, mem_cons_of_mem _ mem_cons_self, by decide +kernel⟩

/-- A client without session at the node of the publisher, and one at another node that could be
reached: nothing is sent. -/
theorem prevented_by_disconnected :
    let own := ofSubscriptions 1 [("a", "x", default)] fun _ => none
    let other := ofSubscriptions 2 [("a", "y", default)] fun _ => some true
    let thisId := Id.ofClient 1 "p" 0
    let publish : Publish := ⟨false, false, .atMostOnce, "a", none, [], none⟩
    other.Subscribed thisId publish.topic "a" "y" default ∧ other.channel "y" = some true ∧
      ∃ outcome, forwardToSubscriptions own [other] lexicographic thisId publish = .ok outcome ∧
        outcome.direct = [] ∧ outcome.shared = [] ∧
          ¬ Delivered [own, other] thisId publish outcome := by
  intro own other thisId publish
  have hvisit : "a" ∈ other.visits "a" := by decide +kernel
  have hsub : other.Subscribed thisId publish.topic "a" "y" default :=
    ⟨(mem_visits.1 hvisit).2, rfl, Id.ofClient 2 "y" 0, by decide +kernel, nofun⟩
  obtain ⟨outcome, hok, -⟩ := @forwardToSubscriptions_ok _ own [other]
    (by simp [own, other, ofSubscriptions_chooses]) lexicographic thisId publish
  have heval : (forwardToSubscriptions own [other] lexicographic thisId publish).toOption.map
      (fun o => (o.direct, o.shared)) = some ([], []) := by decide +kernel
  rw [hok] at heval
  obtain ⟨hdirect, hshared⟩ := Prod.mk.inj (Option.some.inj heval)
  refine ⟨hsub, rfl, outcome, hok, hdirect, hshared, fun h => ?_⟩
  have hone := h.v3 other (mem_cons_of_mem _ mem_cons_self) "a" "y" default hsub rfl rfl
  rw [Outcome.sentAt, hdirect] at hone
  exact nomatch hone

end BroadcastServer

end FerroMq
