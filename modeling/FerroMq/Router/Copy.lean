import FerroMq.Router.Replay

/-!
# Copies of a store that is being changed

An asynchronous snapshot reads the maps shard by shard, and the counters last, while the node goes on.  Such a
copy can be restored; its relations fit its counter if no pair of a filter and a client came or went in the
meantime.
-/

namespace FerroMq

open Lib Finmap

namespace ClusterRouter

/-- The sections were collected entry by entry, each while the store was in one of the states. -/
structure CollectsFrom (window : List ClusterRouter) (d : Sections) : Prop where
  relations_nodup : d.relations.NodupKeys
  relations : ∀ f, ∃ s ∈ window, d.relations.dlookup f = s.inner.relations.lookup f
  clientStates_nodup : d.clientStates.NodupKeys
  clientStates : ∀ c, ∃ s ∈ window, d.clientStates.dlookup c = s.clientStates.lookup c
  topicsCount : ∃ s ∈ window, d.topicsCount = s.inner.topicsCount
  relationsCount : ∃ s ∈ window, d.relationsCount = s.inner.relationsCount

def SamePairs (r s : ClusterRouter) : Prop :=
  ∀ f c, (r.inner.subscription f c).isSome = (s.inner.subscription f c).isSome

variable {s : ClusterRouter} {window : List ClusterRouter} {d : Sections}

theorem Collects.collectsFrom (h : s.Collects d) : CollectsFrom [s] d := by
  have hlookup {K V : Type} [DecidableEq K] {m : Map K V} {l : List (Σ _ : K, V)}
      (hl : (l : Multiset (Σ _ : K, V)) = m.entries) :
      l.NodupKeys ∧ ∀ k, l.dlookup k = m.lookup k := by
    have hnodup : l.NodupKeys := by
      rw [← Multiset.coe_nodupKeys, hl]
      exact m.nodupKeys
    refine ⟨hnodup, fun k => ?_⟩
    rw [← Map.insertAll_entries hl, Map.lookup_insertAll hnodup, lookup_empty,
      Option.or_none]
  obtain ⟨hr, hrl⟩ := hlookup h.relations
  obtain ⟨hc, hcl⟩ := hlookup h.clientStates
  exact ⟨hr, fun f => ⟨s, by simp, hrl f⟩, hc, fun c => ⟨s, by simp, hcl c⟩,
    ⟨s, by simp, h.topicsCount⟩, ⟨s, by simp, h.relationsCount⟩⟩

theorem CollectsFrom.lookup_relations (h : CollectsFrom window d) (f : TopicFilter) :
    ∃ s ∈ window, (Map.insertAll ∅ d.relations).lookup f = s.inner.relations.lookup f := by
  obtain ⟨s, hs, hf⟩ := h.relations f
  refine ⟨s, hs, ?_⟩
  rw [Map.lookup_insertAll h.relations_nodup, hf, lookup_empty, Option.or_none]

theorem CollectsFrom.lookup_clientStates (h : CollectsFrom window d) (c : ClientId) :
    ∃ s ∈ window, (Map.insertAll ∅ d.clientStates).lookup c = s.clientStates.lookup c := by
  obtain ⟨s, hs, hc⟩ := h.clientStates c
  refine ⟨s, hs, ?_⟩
  rw [Map.lookup_insertAll h.clientStates_nodup, hc, lookup_empty, Option.or_none]

theorem CollectsFrom.mem_relations (h : CollectsFrom window d) {f : TopicFilter} :
    f ∈ Map.insertAll ∅ d.relations ↔ ∃ e ∈ d.relations, e.1 = f := by
  rw [← lookup_isSome, Map.lookup_insertAll h.relations_nodup, lookup_empty,
    Option.or_none, List.dlookup_isSome, List.keys, List.mem_map]

theorem CollectsFrom.parsed (h : CollectsFrom window d) (hwindow : ∀ s ∈ window, s.inner.Consistent)
    {f : TopicFilter} (hf : f ∈ Map.insertAll ∅ d.relations) :
    ∃ ks, DefaultRouter.IsFilter f ks := by
  obtain ⟨s, hs, hsf⟩ := h.lookup_relations f
  rw [← lookup_isSome, hsf, lookup_isSome] at hf
  exact (hwindow s hs).parsed f hf

theorem CollectsFrom.consistent (h : CollectsFrom window d)
    (hwindow : ∀ s ∈ window, s.inner.Consistent)
    (hpairs : ∀ s ∈ window, ∀ t ∈ window, SamePairs s t) {topics : TopicTree Unit}
    (htopics : ∀ ks, topics.get ks ≠ ∅ ↔
      ∃ f ∈ Map.insertAll ∅ d.relations, DefaultRouter.IsFilter f ks) :
    DefaultRouter.Consistent
      { topics, topicsCount := ⟨(Map.insertAll ∅ d.relations).keys.card, 0⟩
        relations := Map.insertAll ∅ d.relations, relationsCount := d.relationsCount } where
  topics := htopics
  parsed f hf := h.parsed hwindow hf
  nonempty f rels hf := by
    obtain ⟨s, hs, hsf⟩ := h.lookup_relations f
    exact (hwindow s hs).nonempty f rels (hsf ▸ hf)
  topicsCount := rfl
  relationsCount := by
    obtain ⟨s, hs, hcount⟩ := h.relationsCount
    dsimp only
    rw [hcount, (hwindow s hs).relationsCount]
    refine congrArg _ (Map.sum_card_congr (hwindow s hs).nonempty (fun f rels hf => ?_) fun f c => ?_)
    · obtain ⟨t, ht, htf⟩ := h.lookup_relations f
      exact (hwindow t ht).nonempty f rels (htf ▸ hf)
    · obtain ⟨t, ht, htf⟩ := h.lookup_relations f
      rw [htf]
      exact hpairs s hs t ht f c
  own f c id opts hf := by
    obtain ⟨s, hs, hsf⟩ := h.lookup_relations f
    refine (hwindow s hs).own f c id opts ?_
    rwa [DefaultRouter.subscription, ← hsf]

/-- A copy can be restored, and the result is a consistent router up to the topic tree and the counter
of the filters. -/
theorem load_copied (hwindow : ∀ s ∈ window, s.inner.Consistent)
    (hpairs : ∀ s ∈ window, ∀ t ∈ window, SamePairs s t) (hd : CollectsFrom window d)
    (p : ClusterRouter) :
    (p.load d).1 = .ok () ∧ ∃ r : ClusterRouter, r.inner.Consistent ∧ Agree (p.load d).2 r ∧
      (∀ f c, ∃ s ∈ window, r.inner.subscription f c = s.inner.subscription f c) ∧
      ∀ c, ∃ s ∈ window, r.clientStates.lookup c = s.clientStates.lookup c := by
  have hentry (e) (he : e ∈ d.relations) : ∃ ks, DefaultRouter.IsFilter e.1 ks :=
    hd.parsed hwindow (hd.mem_relations.2 ⟨e, he, rfl⟩)
  obtain ⟨topics, hrun, -⟩ := @restoreRelations_ok
    { p.inner with topicsCount := d.topicsCount, relations := ∅ } d.relations hentry
  -- the tree that an empty router would get
  obtain ⟨fresh, -, hfresh⟩ := @restoreRelations_ok {} d.relations hentry
  have htopics (ks : List Level) : fresh.get ks ≠ ∅ ↔
      ∃ f ∈ Map.insertAll ∅ d.relations, DefaultRouter.IsFilter f ks := by
    rw [hfresh, DefaultRouter.consistent_new.topics]
    constructor
    · rintro (⟨f, hf, -⟩ | ⟨e, he, hks⟩)
      · exact absurd hf notMem_empty
      · exact ⟨e.1, hd.mem_relations.2 ⟨e, he, rfl⟩, hks⟩
    · rintro ⟨f, hf, hks⟩
      obtain ⟨e, he, rfl⟩ := hd.mem_relations.1 hf
      exact .inr ⟨e, he, hks⟩
  have hload : p.load d = (.ok (),
      { inner :=
          { topics, topicsCount := d.topicsCount, relations := Map.insertAll ∅ d.relations
            relationsCount := d.relationsCount }
        clientStates := Map.insertAll ∅ d.clientStates }) := by
    rw [load]
    simp only [hrun]
  rw [hload]
  refine ⟨rfl, ⟨_, Map.insertAll ∅ d.clientStates⟩, hd.consistent hwindow hpairs htopics,
    ⟨rfl, rfl, rfl⟩, fun f c => ?_, hd.lookup_clientStates⟩
  obtain ⟨s, hs, hsf⟩ := hd.lookup_relations f
  exact ⟨s, hs, by rw [DefaultRouter.subscription, hsf]; rfl⟩

end ClusterRouter

end FerroMq
