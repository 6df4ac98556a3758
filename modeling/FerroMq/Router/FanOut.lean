import FerroMq.Router.Matches

/-!
# The fan-out of a published message

`FanOut` says whom a message is for: every eligible subscription outside share groups and one eligible member of
every share group, with one entry for each of MQTT 3 and one per node for each MQTT 5 client.  `_matches`
computes this for topics without wildcards.
-/

namespace FerroMq

open Lib Codec List

namespace DefaultRouter

def FilterMatches (f : TopicFilter) (topic : Topic) : Prop :=
  ∃ t, Topic.fromStr f = .ok t ∧ t.Matches topic

section Spec

variable (r : DefaultRouter) (thisId : Id) (topic : Topic)

def Member (f : TopicFilter) (g : SharedGroup) (c : ClientId) : Prop :=
  FilterMatches f topic ∧ ∃ id opts, r.Eligible thisId f c id opts ∧ opts.sharedGroup = some g

variable (pick : TopicFilter → SharedGroup → Option ClientId)

/-- The subscription contributes to the fan-out, `pick` being the chosen member of each group. -/
def Contributes (f : TopicFilter) (c : ClientId) (id : Id) (opts : SubscriptionOptions) : Prop :=
  FilterMatches f topic ∧ r.Eligible thisId f c id opts ∧
    ∀ g, opts.sharedGroup = some g → pick f g = some c

def identifierOf (f : TopicFilter) (c : ClientId) : Option SubscriptionIdentifier :=
  (r.subscription f c).bind fun x => x.2.subscriptionIdentifier

def relationsAt (out : SubRelationsMap) (n : NodeId) : List SubRelation := (out.lookup n).getD []

/-- The fan-out of a message of the publisher `thisId` to `topic`. -/
structure FanOut (out : SubRelationsMap) : Prop where
  member : ∀ f g, (∃ c, r.Member thisId topic f g c) →
    ∃ c, pick f g = some c ∧ r.Member thisId topic f g c
  v3 : ∀ f c id opts, r.Contributes thisId topic pick f c id opts → opts.isV3 = true →
    (relationsAt out id.nodeId).countP
      (fun e => e.opts.isV3 && decide (e.topicFilter = f) && decide (e.clientId = c)) = 1
  v5 : ∀ f c id opts, r.Contributes thisId topic pick f c id opts → opts.isV3 = false →
    (relationsAt out id.nodeId).countP (fun e => !e.opts.isV3 && decide (e.clientId = c)) = 1
  /-- It carries the identifiers of all its contributing subscriptions. -/
  identifiers : ∀ n, ∀ e ∈ relationsAt out n, e.opts.isV3 = false → ∃ fs : List TopicFilter,
    fs.Nodup ∧ (∀ f, f ∈ fs ↔ ∃ id opts, r.Contributes thisId topic pick f e.clientId id opts ∧
      opts.isV3 = false ∧ id.nodeId = n) ∧
    e.subIds.getD [] = fs.filterMap fun f => r.identifierOf f e.clientId
  /-- Every entry is there for a contributing subscription. -/
  origin : ∀ n, ∀ e ∈ relationsAt out n, e.group.map Prod.fst = e.opts.sharedGroup ∧
    ∃ id, r.Contributes thisId topic pick e.topicFilter e.clientId id e.opts ∧ id.nodeId = n
  /-- No node is there without an entry. -/
  nodes : ∀ n ∈ out, relationsAt out n ≠ []

end Spec

/-! ## The entries of a node -/

/-- What becomes of the contributions `l` at a node. -/
structure Output (l : List Contribution) (v5s : List SubRelation) : Prop where
  nodup : (v5s.map SubRelation.clientId).Nodup
  mem : ∀ c, l.filter (Contribution.isOfClient c) ≠ [] → ∃ e ∈ v5s, e.clientId = c
  merged : ∀ e ∈ v5s, Contribution.Merged (l.filter (Contribution.isOfClient e.clientId))
    (some ⟨e.topicFilter, e.opts, e.subIds, e.group⟩)

theorem output_nil : Output [] [] :=
  ⟨nodup_nil, fun _ h => absurd rfl h, fun _ h => nomatch h⟩

variable {l : List Contribution} {r : DefaultRouter} {topic : Topic}

theorem output_into {col : Collector} (h : col.Holds l) (w : Walk ClientId V5Relation) :
    ∃ v5s, col.into w = (l.filter fun x => x.opts.isV3).map Contribution.v3Relation ++ v5s ∧ Output l v5s := by
  refine ⟨_, by rw [Collector.into, h.v3Rels], ?_, ?_, ?_⟩
  · rw [map_map]
    exact w.nodupKeys col.v5Rels
  · intro c hc
    have hmerged := h.v5Rels c
    cases hlookup : col.v5Rels.lookup c with
    | none =>
      rw [hlookup] at hmerged
      exact absurd hmerged hc
    | some rel => exact ⟨_, mem_map_of_mem (w.mem_list.2 hlookup), rfl⟩
  · intro e he
    obtain ⟨⟨c, rel⟩, hmem, rfl⟩ := mem_map.1 he
    have hmerged := h.v5Rels c
    rwa [w.mem_list.1 hmem] at hmerged

theorem relationsAt_insertAll {m : CollectorMap} (h : m.Holds l)
    (nodes : Walk NodeId Collector) (clients : NodeId → Walk ClientId V5Relation) (n : NodeId) :
    ∃ v5s, relationsAt (Map.insertAll ∅ ((nodes.list m).map fun e => ⟨e.1, e.2.into (clients e.1)⟩)) n =
          ((l.filter (Contribution.isAtNode n)).filter fun x => x.opts.isV3).map
            Contribution.v3Relation ++ v5s ∧ Output (l.filter (Contribution.isAtNode n)) v5s := by
  rw [relationsAt, nodes.lookup_insertAll_map m fun n col => col.into (clients n)]
  cases hlookup : m.lookup n with
  | none =>
    rw [h.filter_eq_nil hlookup]
    exact ⟨[], rfl, output_nil⟩
  | some col => exact output_into (h.collector hlookup) (clients n)

/-! ## All filters -/

/-- What is collected for several filters. -/
structure Visits (r : DefaultRouter) (thisId : Id) (fs : List TopicFilter) (l : List Contribution) :
    Prop where
  origin : ∀ x ∈ l, x.topicFilter ∈ fs ∧ x.group.map Prod.fst = x.opts.sharedGroup ∧
    ∃ id, r.Eligible thisId x.topicFilter x.clientId id x.opts ∧ id.nodeId = x.nodeId
  nodup : (l.map fun x => (x.topicFilter, x.clientId)).Nodup
  direct : ∀ f ∈ fs, ∀ c id opts, r.Eligible thisId f c id opts → opts.sharedGroup = none →
    ∃ x ∈ l, x.topicFilter = f ∧ x.clientId = c
  groups : ∀ f ∈ fs, ∀ g c id opts, r.Eligible thisId f c id opts → opts.sharedGroup = some g →
    ∃ x ∈ l, x.topicFilter = f ∧ x.opts.sharedGroup = some g
  unique : ∀ g, ∀ x ∈ l, ∀ y ∈ l, x.topicFilter = y.topicFilter → x.opts.sharedGroup = some g →
    y.opts.sharedGroup = some g → x.clientId = y.clientId

section Visits

variable {r : DefaultRouter} {thisId : Id} {fs : List TopicFilter} {l l' : List Contribution}

theorem visits_nil : r.Visits thisId [] [] where
  origin _ h := nomatch h
  nodup := nodup_nil
  direct _ h := nomatch h
  groups _ h := nomatch h
  unique _ _ h := nomatch h

variable {f : TopicFilter} {c : ClientId}

theorem Visits.cons (h : r.Visits thisId fs l) (hf : f ∉ fs)
    (hvisit : r.Visit thisId f l') : r.Visits thisId (f :: fs) (l' ++ l) := by
  have hnew {x : Contribution} (hx : x ∈ l') : x.topicFilter = f := (hvisit.origin x hx).1
  have hold {x : Contribution} (hx : x ∈ l) : x.topicFilter ≠ f := fun heq =>
    hf (heq ▸ (h.origin x hx).1)
  refine ⟨fun x hx => ?_, ?_, ?_, ?_, ?_⟩
  · rcases mem_append.1 hx with hx | hx
    · obtain ⟨hxf, hgroup, id, hel, hnode⟩ := hvisit.origin x hx
      exact ⟨by simp [hxf], hgroup, id, hxf ▸ hel, hnode⟩
    · obtain ⟨hxf, hrest⟩ := h.origin x hx
      exact ⟨mem_cons_of_mem _ hxf, hrest⟩
  · rw [map_append, nodup_append]
    refine ⟨?_, h.nodup, ?_⟩
    · refine List.Nodup.of_map Prod.snd ?_
      rw [map_map]
      exact hvisit.nodup
    · rintro k hk k' hk' rfl
      obtain ⟨x, hx, rfl⟩ := mem_map.1 hk
      obtain ⟨y, hy, heq⟩ := mem_map.1 hk'
      exact hold hy ((congrArg Prod.fst heq).trans (hnew hx))
  · intro f' hf' c id opts hel hg
    rcases mem_cons.1 hf' with rfl | hf'
    · obtain ⟨x, hx, hc⟩ := hvisit.direct c id opts hel hg
      exact ⟨x, mem_append_left _ hx, hnew hx, hc⟩
    · obtain ⟨x, hx, hxf⟩ := h.direct f' hf' c id opts hel hg
      exact ⟨x, mem_append_right _ hx, hxf⟩
  · intro f' hf' g c id opts hel hg
    rcases mem_cons.1 hf' with rfl | hf'
    · obtain ⟨x, hx, hxg⟩ := hvisit.groups g c id opts hel hg
      exact ⟨x, mem_append_left _ hx, hnew hx, hxg⟩
    · obtain ⟨x, hx, hxf⟩ := h.groups f' hf' g c id opts hel hg
      exact ⟨x, mem_append_right _ hx, hxf⟩
  · intro g x hx y hy hxy hxg hyg
    rcases mem_append.1 hx with hx | hx <;> rcases mem_append.1 hy with hy | hy
    · exact hvisit.unique g x hx y hy hxg hyg
    · exact absurd (hxy.symm.trans (hnew hx)) (hold hy)
    · exact absurd (hxy.trans (hnew hy)) (hold hx)
    · exact h.unique g x hx y hy hxy hxg hyg

theorem visits_flatten (hfs : fs.Nodup) {ls : List (List Contribution)}
    (h : List.Forall₂ (r.Visit thisId) fs ls) : r.Visits thisId fs ls.flatten := by
  induction h with
  | nil => exact visits_nil
  | cons hvisit _ ih =>
    rw [nodup_cons] at hfs
    exact (ih hfs.2).cons hfs.1 hvisit

def picked (l : List Contribution) (f : TopicFilter) (g : SharedGroup) : Option ClientId :=
  (l.find? fun x => decide (x.topicFilter = f) && decide (x.opts.sharedGroup = some g)).map
    Contribution.clientId

theorem Visits.picked_eq (h : r.Visits thisId fs l) {x : Contribution} (hx : x ∈ l)
    {g : SharedGroup} (hg : x.opts.sharedGroup = some g) :
    picked l x.topicFilter g = some x.clientId := by
  rw [picked]
  cases hfind : l.find? fun y =>
      decide (y.topicFilter = x.topicFilter) && decide (y.opts.sharedGroup = some g) with
  | none =>
    have hnot := find?_eq_none.1 hfind x hx
    simp [hg] at hnot
  | some y =>
    have hy := find?_some hfind
    simp only [Bool.and_eq_true, decide_eq_true_eq] at hy
    rw [Option.map_some, h.unique g y (mem_of_find?_eq_some hfind) x hx hy.1 hy.2 hg]

theorem mem_of_picked {g : SharedGroup}
    (h : picked l f g = some c) : ∃ x ∈ l, x.topicFilter = f ∧ x.clientId = c := by
  obtain ⟨x, hfind, rfl⟩ := Option.map_eq_some_iff.1 h
  have hx := find?_some hfind
  simp only [Bool.and_eq_true, decide_eq_true_eq] at hx
  exact ⟨x, mem_of_find?_eq_some hfind, hx.1, rfl⟩

theorem Eligible.unique {id id' : Id} {opts opts' : SubscriptionOptions} (h : r.Eligible thisId f c id opts)
    (h' : r.Eligible thisId f c id' opts') : id = id' ∧ opts = opts' := by
  have heq := h.1.symm.trans h'.1
  simpa using heq

variable {topic : Topic}

theorem Visits.contributes_iff (h : r.Visits thisId fs l)
    (hfs : ∀ f, f ∈ fs ↔ f ∈ r.relations ∧ FilterMatches f topic)
    {id : Id} {opts : SubscriptionOptions} :
    r.Contributes thisId topic (picked l) f c id opts ↔ r.Eligible thisId f c id opts ∧
      ∃ x ∈ l, x.topicFilter = f ∧ x.clientId = c ∧ x.opts = opts ∧ x.nodeId = id.nodeId := by
  constructor
  · rintro ⟨hmatch, hel, hpick⟩
    have hmem : f ∈ fs := (hfs f).2 ⟨mem_of_subscription hel.1, hmatch⟩
    obtain ⟨x, hx, hxf, hxc⟩ : ∃ x ∈ l, x.topicFilter = f ∧ x.clientId = c := by
      cases hg : opts.sharedGroup with
      | none => exact h.direct f hmem c id opts hel hg
      | some g => exact mem_of_picked (hpick g hg)
    obtain ⟨-, -, id', hel', hnode⟩ := h.origin x hx
    rw [hxf, hxc] at hel'
    obtain ⟨rfl, rfl⟩ := hel.unique hel'
    exact ⟨hel, x, hx, hxf, hxc, rfl, hnode.symm⟩
  · rintro ⟨hel, x, hx, rfl, rfl, rfl, hnode⟩
    exact ⟨((hfs _).1 (h.origin x hx).1).2, hel, fun g hg => h.picked_eq hx hg⟩

end Visits

section Entries

variable {r : DefaultRouter} {thisId : Id} {topic : Topic} {fs : List TopicFilter}
  {l : List Contribution} {v5s : List SubRelation}

abbrev atNode (l : List Contribution) (n : NodeId) : List Contribution :=
  l.filter (Contribution.isAtNode n)

abbrev v3Entries (l : List Contribution) : List SubRelation :=
  (l.filter fun x => x.opts.isV3).map Contribution.v3Relation

variable {x : Contribution} {n : NodeId} {e : SubRelation}

theorem mem_atNode : x ∈ atNode l n ↔ x ∈ l ∧ x.nodeId = n := by
  rw [mem_filter, Contribution.isAtNode, decide_eq_true_eq]

theorem isV3_of_mem_v3Entries (h : e ∈ v3Entries l) : e.opts.isV3 = true := by
  obtain ⟨x, hx, rfl⟩ := mem_map.1 h
  exact (mem_filter.1 hx).2

theorem mem_filter_isOfClient {c : ClientId} :
    x ∈ l.filter (Contribution.isOfClient c) ↔ x ∈ l ∧ x.opts.isV3 = false ∧ x.clientId = c := by
  rw [mem_filter, Contribution.isOfClient, Bool.and_eq_true, Bool.not_eq_true',
    decide_eq_true_eq]

theorem Output.exists_mem (h : Output l v5s) (he : e ∈ v5s) :
    ∃ x ∈ l, x.opts.isV3 = false ∧ x.clientId = e.clientId ∧ x.topicFilter = e.topicFilter ∧
      x.opts = e.opts ∧ x.group = e.group := by
  obtain ⟨⟨x, hx, hf, ho, hg⟩, -⟩ := h.merged e he
  obtain ⟨hmem, hv5, hc⟩ := mem_filter_isOfClient.1 hx
  exact ⟨x, hmem, hv5, hc, hf.symm, ho.symm, hg.symm⟩

theorem Output.isV3_eq_false (h : Output l v5s) (he : e ∈ v5s) : e.opts.isV3 = false := by
  obtain ⟨x, -, hv5, -, -, hopts, -⟩ := h.exists_mem he
  rwa [← hopts]

theorem Visits.countP_v3 (h : r.Visits thisId fs l) (hout : Output (atNode l n) v5s)
    (hx : x ∈ atNode l n) (hv3 : x.opts.isV3 = true) :
    (v3Entries (atNode l n) ++ v5s).countP (fun e => e.opts.isV3 &&
      decide (e.topicFilter = x.topicFilter) && decide (e.clientId = x.clientId)) = 1 := by
  have hnodup : ((v3Entries (atNode l n)).map fun e => (e.topicFilter, e.clientId)).Nodup := by
    rw [map_map]
    exact h.nodup.sublist ((filter_sublist.trans filter_sublist).map _)
  rw [countP_append, countP_eq_one hnodup
    (mem_map_of_mem (mem_filter.2 ⟨hx, hv3⟩))]
  · rw [countP_eq_zero.2 fun e he => ?_]
    simp [hout.isV3_eq_false he]
  · simpa [Contribution.v3Relation] using hv3
  · intro e _ he
    simp only [Bool.and_eq_true, decide_eq_true_eq] at he
    exact Prod.ext he.1.2 he.2

theorem Output.countP_v5 (h : Output l v5s) (hx : x ∈ l) (hv5 : x.opts.isV3 = false) :
    (v3Entries l ++ v5s).countP (fun e => !e.opts.isV3 && decide (e.clientId = x.clientId)) = 1 := by
  obtain ⟨e, he, hc⟩ := h.mem x.clientId
    (ne_nil_of_mem (mem_filter_isOfClient.2 ⟨hx, hv5, rfl⟩))
  rw [countP_append, countP_eq_zero.2, zero_add, countP_eq_one h.nodup he]
  · simp [h.isV3_eq_false he, hc]
  · intro e' _ he'
    simp only [Bool.and_eq_true, decide_eq_true_eq] at he'
    exact he'.2.trans hc.symm
  · intro e' he'
    simp [isV3_of_mem_v3Entries he']

theorem Visits.identifiers (h : r.Visits thisId fs l)
    (hfs : ∀ f, f ∈ fs ↔ f ∈ r.relations ∧ FilterMatches f topic)
    (hout : Output (atNode l n) v5s) (he : e ∈ v5s) :
    ∃ fs' : List TopicFilter, fs'.Nodup ∧
      (∀ f, f ∈ fs' ↔ ∃ id opts, r.Contributes thisId topic (picked l) f e.clientId id opts ∧
        opts.isV3 = false ∧ id.nodeId = n) ∧
      e.subIds.getD [] = fs'.filterMap fun f => r.identifierOf f e.clientId := by
  have hmem {x : Contribution} :
      x ∈ (atNode l n).filter (Contribution.isOfClient e.clientId) ↔
        (x ∈ l ∧ x.nodeId = n) ∧ x.opts.isV3 = false ∧ x.clientId = e.clientId := by
    rw [mem_filter_isOfClient, mem_atNode]
  refine ⟨((atNode l n).filter (Contribution.isOfClient e.clientId)).map Contribution.topicFilter,
    ?_, fun f => ?_, ?_⟩
  · refine List.Nodup.map_on (fun x hx y hy hxy => ?_)
      (h.nodup.of_map.sublist (filter_sublist.trans filter_sublist))
    obtain ⟨⟨hxl, -⟩, -, hxc⟩ := hmem.1 hx
    obtain ⟨⟨hyl, -⟩, -, hyc⟩ := hmem.1 hy
    exact inj_on_of_nodup_map h.nodup hxl hyl (Prod.ext hxy (hxc.trans hyc.symm))
  · rw [mem_map]
    constructor
    · rintro ⟨x, hx, rfl⟩
      obtain ⟨⟨hxl, rfl⟩, hv5, hc⟩ := hmem.1 hx
      obtain ⟨-, -, id, hel, hnode⟩ := h.origin x hxl
      exact ⟨id, x.opts, (h.contributes_iff hfs).2
        ⟨hc ▸ hel, x, hxl, rfl, hc, rfl, hnode.symm⟩, hv5, hnode⟩
    · rintro ⟨id, opts, hcon, hv5, rfl⟩
      obtain ⟨-, x, hxl, hxf, hxc, rfl, hnode⟩ := (h.contributes_iff hfs).1 hcon
      exact ⟨x, hmem.2 ⟨⟨hxl, hnode⟩, hv5, hxc⟩, hxf⟩
  · rw [filterMap_map, (hout.merged e he).2]
    refine filterMap_congr fun x hx => ?_
    obtain ⟨⟨hxl, -⟩, -, hc⟩ := hmem.1 hx
    obtain ⟨-, -, id, hel, -⟩ := h.origin x hxl
    rw [Function.comp, identifierOf, ← hc, hel.1]
    rfl

theorem Output.origin (h : Output (atNode l n) v5s) (he : e ∈ v3Entries (atNode l n) ++ v5s) :
    ∃ x ∈ l, x.nodeId = n ∧ x.topicFilter = e.topicFilter ∧ x.clientId = e.clientId ∧
      x.opts = e.opts ∧ x.group = e.group := by
  rcases mem_append.1 he with he | he
  · obtain ⟨x, hx, rfl⟩ := mem_map.1 he
    obtain ⟨hxl, hnode⟩ := mem_atNode.1 (mem_filter.1 hx).1
    exact ⟨x, hxl, hnode, rfl, rfl, rfl, rfl⟩
  · obtain ⟨x, hx, -, hc, hf, ho, hg⟩ := h.exists_mem he
    obtain ⟨hxl, hnode⟩ := mem_atNode.1 hx
    exact ⟨x, hxl, hnode, hf, hc, ho, hg⟩

theorem Output.ne_nil (h : Output l v5s) (hl : l ≠ []) : v3Entries l ++ v5s ≠ [] := by
  obtain ⟨x, hx⟩ := exists_mem_of_ne_nil l hl
  cases hv : x.opts.isV3 with
  | true => exact ne_nil_of_mem (mem_append_left _
      (mem_map_of_mem (mem_filter.2 ⟨hx, hv⟩)))
  | false =>
    obtain ⟨e, he, -⟩ := h.mem x.clientId
      (ne_nil_of_mem (mem_filter_isOfClient.2 ⟨hx, hv, rfl⟩))
    exact ne_nil_of_mem (mem_append_right _ he)

end Entries

theorem fanOut_of_visits {thisId : Id} {fs : List TopicFilter} (h : r.Visits thisId fs l)
    (hfs : ∀ f, f ∈ fs ↔ f ∈ r.relations ∧ FilterMatches f topic) {m : CollectorMap}
    (hm : m.Holds l) (nodes : Walk NodeId Collector) (clients : NodeId → Walk ClientId V5Relation) :
    r.FanOut thisId topic (picked l)
      (Map.insertAll ∅ ((nodes.list m).map fun e => ⟨e.1, e.2.into (clients e.1)⟩)) := by
  have hout := relationsAt_insertAll hm nodes clients
  refine ⟨?_, ?_, ?_, ?_, ?_, ?_⟩
  · rintro f g ⟨c, hmatch, id, opts, hel, hg⟩
    have hmem : f ∈ fs := (hfs f).2 ⟨mem_of_subscription hel.1, hmatch⟩
    obtain ⟨x, hx, rfl, hxg⟩ := h.groups f hmem g c id opts hel hg
    obtain ⟨-, -, id', hel', -⟩ := h.origin x hx
    exact ⟨x.clientId, h.picked_eq hx hxg, hmatch, id', x.opts, hel', hxg⟩
  · intro f c id opts hcon hv3
    obtain ⟨-, x, hx, rfl, rfl, rfl, hnode⟩ := (h.contributes_iff hfs).1 hcon
    obtain ⟨v5s, heq, hv5s⟩ := hout id.nodeId
    rw [heq]
    exact h.countP_v3 hv5s (mem_atNode.2 ⟨hx, hnode⟩) hv3
  · intro f c id opts hcon hv5
    obtain ⟨-, x, hx, rfl, rfl, rfl, hnode⟩ := (h.contributes_iff hfs).1 hcon
    obtain ⟨v5s, heq, hv5s⟩ := hout id.nodeId
    rw [heq]
    exact hv5s.countP_v5 (mem_atNode.2 ⟨hx, hnode⟩) hv5
  · intro n e he hv5
    obtain ⟨v5s, heq, hv5s⟩ := hout n
    rw [heq] at he
    refine h.identifiers hfs hv5s ((mem_append.1 he).resolve_left fun he' => ?_)
    rw [isV3_of_mem_v3Entries he'] at hv5
    cases hv5
  · intro n e he
    obtain ⟨v5s, heq, hv5s⟩ := hout n
    rw [heq] at he
    obtain ⟨x, hx, rfl, hf, hc, ho, hg⟩ := hv5s.origin he
    obtain ⟨-, hgroup, id, hel, hnode⟩ := h.origin x hx
    rw [← hg, ← ho, ← hf, ← hc]
    exact ⟨hgroup, id, (h.contributes_iff hfs).2 ⟨hel, x, hx, rfl, rfl, rfl, hnode.symm⟩, hnode⟩
  · intro n hn
    obtain ⟨v5s, heq, hv5s⟩ := hout n
    rw [heq]
    refine hv5s.ne_nil fun hnil => ?_
    rw [← Finmap.lookup_isSome, nodes.lookup_insertAll_map m fun n col => col.into (clients n),
      Option.isSome_map] at hn
    obtain ⟨col, hcol⟩ := Option.isSome_iff_exists.1 hn
    have hholds := hm n
    rw [hcol] at hholds
    exact hholds.1 hnil

/-! ## The filters that match -/

section Filters

variable {r : DefaultRouter} {thisId : Id} {topic : Topic}

def visited (r : DefaultRouter) (topic : Topic) : List TopicFilter :=
  (r.topics.iter topic).map fun item => Topic.toStr ⟨item.1⟩

variable {f : TopicFilter}

theorem IsFilter.toStr_eq {ks : List Level} (h : IsFilter f ks) : Topic.toStr ⟨ks⟩ = f := by
  obtain ⟨t, ht, rfl⟩ := h
  exact Topic.toStr_fromStr ht

theorem IsFilter.multiLast {ks : List Level} (h : IsFilter f ks) : MultiLast ks := by
  obtain ⟨t, ht, rfl⟩ := h
  exact Topic.Parsed.multiLast ⟨f, ht⟩

theorem Consistent.mem_iter (hr : r.Consistent) (hpath : MultiLast topic.levels) {item : Item Unit} :
    item ∈ r.topics.iter topic ↔ ∃ f, IsItem r.topics [] f item.1 item.2 ∧ Covers f topic.levels ∧
      ¬ Shielded f topic.levels := by
  refine (mem_matchItems_of_multiLast hpath r.topics (fun _ ks hks => ?_) [] item.1 item.2).trans ?_
  · obtain ⟨f, -, hfilter⟩ := (hr.topics ks).1 hks
    exact hfilter.multiLast
  · simp only [forall_const]

theorem Consistent.isFilter_of_mem (hr : r.Consistent) (hpath : MultiLast topic.levels)
    {item : Item Unit} (h : item ∈ r.topics.iter topic) : IsFilter (Topic.toStr ⟨item.1⟩) item.1 ∧
      Topic.toStr ⟨item.1⟩ ∈ r.relations ∧ Covers item.1 topic.levels ∧
        ¬ Shielded item.1 topic.levels := by
  obtain ⟨ks, ⟨hks, hne, -⟩, hcovers, hshield⟩ := (hr.mem_iter hpath).1 h
  rw [nil_append] at hks
  obtain ⟨f, hf, hfilter⟩ := (hr.topics ks).1 hne
  rw [hks, hfilter.toStr_eq]
  exact ⟨hfilter, hf, hcovers, hshield⟩

theorem Consistent.mem_visited (hr : r.Consistent) (hpath : MultiLast topic.levels)
    (f : TopicFilter) :
    f ∈ r.visited topic ↔ f ∈ r.relations ∧ FilterMatches f topic := by
  constructor
  · intro h
    obtain ⟨item, hitem, rfl⟩ := mem_map.1 h
    obtain ⟨⟨t, ht, hlevels⟩, hmem, hcovers, hshield⟩ := hr.isFilter_of_mem hpath hitem
    rw [← hlevels] at hcovers hshield
    exact ⟨hmem, t, ht, hcovers, hshield⟩
  · rintro ⟨hmem, t, ht, hcovers, hshield⟩
    have hfilter : IsFilter f t.levels := ⟨t, ht, rfl⟩
    refine mem_map.2 ⟨(t.levels, (r.topics.get t.levels).sort), ?_, hfilter.toStr_eq⟩
    exact (hr.mem_iter hpath).2 ⟨t.levels,
      ⟨rfl, (hr.topics t.levels).2 ⟨f, hmem, hfilter⟩, rfl⟩, hcovers, hshield⟩

theorem Consistent.nodup_visited (hr : r.Consistent)
    (hfree : ∀ l ∈ topic.levels, l.isWildcard = false) : (r.visited topic).Nodup := by
  have hnodup := nodup_matchItems hfree r.topics []
  refine List.Nodup.map_on (fun a ha b hb hab => ?_) hnodup.of_map
  refine inj_on_of_nodup_map hnodup ha hb ?_
  have hpath := multiLast_of_wildcardFree hfree
  exact (hr.isFilter_of_mem hpath ha).1.unique (hab ▸ (hr.isFilter_of_mem hpath hb).1)

variable {σ : Type} {env : Surroundings σ} {topicName : String}

theorem matches_ok (htopic : Topic.fromStr topicName = .ok topic) (henv : env.Chooses)
    (r : DefaultRouter) (thisId : Id) (s : σ) :
    ∃ (m : CollectorMap) (s' : σ) (ls : List (List Contribution)),
      r.matches env thisId topicName s = .ok (Map.insertAll ∅
        ((env.nodes.list m).map fun e => ⟨e.1, e.2.into (env.clients e.1)⟩), s') ∧
      m.Holds ls.flatten ∧ List.Forall₂ (r.Visit thisId) (r.visited topic) ls := by
  obtain ⟨m, s', ls, hok, hm, hls⟩ := foldlM_visitFilter_ok (r := r) henv
    CollectorMap.holds_empty s (r.topics.iter topic)
  refine ⟨m, s', ls, ?_, hm, forall₂_map_left_iff.2 hls⟩
  simp only [DefaultRouter.matches, htopic, Except.mapError, bind, Except.bind]
  rw [hok]

theorem Consistent.fanOut_matches (hr : r.Consistent)
    (hfree : ∀ l ∈ topic.levels, l.isWildcard = false)
    (htopic : Topic.fromStr topicName = .ok topic) (henv : env.Chooses) (thisId : Id) (s : σ) :
    ∃ out s' pick, r.matches env thisId topicName s = .ok (out, s') ∧
      r.FanOut thisId topic pick out := by
  obtain ⟨m, s', ls, hok, hm, hls⟩ := matches_ok htopic henv r thisId s
  have hvisits := visits_flatten (hr.nodup_visited hfree) hls
  exact ⟨_, s', picked ls.flatten, hok,
    fanOut_of_visits hvisits (hr.mem_visited (multiLast_of_wildcardFree hfree)) hm env.nodes
      env.clients⟩

theorem count_le_countP {fs : List TopicFilter} {ls : List (List Contribution)}
    (h : List.Forall₂ (r.Visit thisId) fs ls) {c : ClientId} {id : Id}
    {opts : SubscriptionOptions} (hel : r.Eligible thisId f c id opts)
    (hg : opts.sharedGroup = none) :
    fs.count f ≤ ls.flatten.countP fun x => Contribution.isAtNode id.nodeId x &&
      (decide (x.opts = opts) && (decide (x.topicFilter = f) && decide (x.clientId = c))) := by
  induction h with
  | nil => simp
  | @cons f' l fs ls hvisit _ ih =>
    rw [count_cons, flatten_cons, countP_append]
    split_ifs with heq
    · obtain rfl : f' = f := by simpa using heq
      obtain ⟨x, hx, hxc⟩ := hvisit.direct c id opts hel hg
      obtain ⟨hxf, -, id', hel', hnode⟩ := hvisit.origin x hx
      rw [hxc] at hel'
      obtain ⟨rfl, hopts⟩ := hel.unique hel'
      have hpos : 0 < l.countP fun x => Contribution.isAtNode id.nodeId x &&
          (decide (x.opts = opts) && (decide (x.topicFilter = f') && decide (x.clientId = c))) :=
        countP_pos_iff.2 ⟨x, hx, by simp [Contribution.isAtNode, hnode, hopts, hxf, hxc]⟩
      omega
    · omega

end Filters

abbrev nodeOrder : LinearOrder NodeId := .lift' UInt64.toNat fun _ _ => UInt64.toNat_inj.1

/-- Surroundings in which everybody is online, the first member of a group is chosen and maps are
walked in ascending order. -/
def Surroundings.first : Surroundings Unit where
  isOnline _ _ _ := true
  choice _ _ _ _ _ := (some (0, true), ())
  rels _ := Walk.sorted
  groups _ _ := Walk.sorted
  nodes := @Walk.sorted _ _ nodeOrder
  clients _ := Walk.sorted

theorem Surroundings.first_chooses : Surroundings.first.Chooses :=
  fun _ _ _ _ _ hne => ⟨0, true, (), rfl, length_pos_iff.2 hne⟩

/-- A filter with a wildcard is visited twice for the topic of the same text. -/
theorem two_le_count_visited {topicName : String}
    (htopic : Topic.fromStr topicName = .ok topic) (hwild : ∃ l ∈ topic.levels, l.isWildcard = true)
    (hget : r.topics.get topic.levels ≠ ∅) : 2 ≤ (r.visited topic).count topicName := by
  have hparsed : topic.Parsed := ⟨topicName, htopic⟩
  have hle := count_le_count_map (l := (r.topics.iter topic).map Prod.fst)
    (x := topic.levels) (f := fun ks => Topic.toStr ⟨ks⟩)
  rw [map_map, Topic.toStr_fromStr htopic] at hle
  exact ((count_matchItems hparsed.multiLast r.topics [] hget).2 hwild).trans hle

/-- A message to a topic with a wildcard, and a subscriber of MQTT 3 to the filter of the same text. -/
theorem not_fanOut {topicName : String}
    (htopic : Topic.fromStr topicName = .ok topic) (hwild : ∃ l ∈ topic.levels, l.isWildcard = true)
    (hget : r.topics.get topic.levels ≠ ∅) {id : Id} {opts : SubscriptionOptions}
    (hsub : r.subscription topicName id.clientId = some (id, opts)) (hv3 : opts.isV3 = true)
    (hgroup : opts.sharedGroup = none) {σ : Type} {env : Surroundings σ} (henv : env.Chooses)
    (thisId : Id) (s : σ) : ∃ out s', r.matches env thisId topicName s = .ok (out, s') ∧
      ∀ pick, ¬ r.FanOut thisId topic pick out := by
  obtain ⟨m, s', ls, hok, hm, hls⟩ := matches_ok htopic henv r thisId s
  refine ⟨_, s', hok, fun pick hfan => ?_⟩
  have hel : r.Eligible thisId topicName id.clientId id opts := ⟨hsub, fun h => by
    cases opts <;> simp_all [SubscriptionOptions.noLocal, SubscriptionOptions.isV3]⟩
  have hmatch : FilterMatches topicName topic :=
    ⟨topic, htopic, (show topic.Parsed from ⟨topicName, htopic⟩).matches_self⟩
  have hone := hfan.v3 topicName id.clientId id opts
    ⟨hmatch, hel, fun g hg => by rw [hgroup] at hg; cases hg⟩ hv3
  obtain ⟨v5s, heq, -⟩ := relationsAt_insertAll hm env.nodes env.clients id.nodeId
  rw [heq, countP_append, countP_map, countP_filter, countP_filter] at hone
  have htwo := (two_le_count_visited htopic hwild hget).trans (count_le_countP hls hel hgroup)
  have hone' := (Nat.le_add_right _ _).trans hone.le
  refine absurd ((htwo.trans (countP_mono_left fun x _ hx => ?_)).trans hone') (by decide)
  simp only [Bool.and_eq_true, decide_eq_true_eq] at hx
  obtain ⟨hnode, rfl, hf, hc⟩ := hx
  simp only [Function.comp, Contribution.v3Relation, hv3, hf, hc, hnode, decide_true, Bool.and_self]

end DefaultRouter

end FerroMq
