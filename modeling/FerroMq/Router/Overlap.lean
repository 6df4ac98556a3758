import FerroMq.Router.FanOut

/-!
# Overlapping subscriptions of an MQTT 5 client

`Unites` says what the one relation of an MQTT 5 client with several matching subscriptions should carry.
`SubscriptioRelationsCollector::add` collects the identifiers and leaves the rest as the first subscription has
it, so the relation is right for every order exactly if there is nothing to unite.
-/

namespace FerroMq

open Lib Codec List

/-! ## The relation of the first subscription -/

theorem Contribution.foldl_merge_some (rel : V5Relation) (l : List Contribution) :
    ∃ subIds, l.foldl (fun o x => some (x.merge o)) (some rel) =
      some { rel with subIds := subIds } := by
  induction l generalizing rel with
  | nil => exact ⟨rel.subIds, rfl⟩
  | cons x l ih =>
    rw [foldl_cons, x.merge_some rel]
    exact ih { rel with subIds := (x.merge (some rel)).subIds }

namespace Collector

def addAll (l : List Contribution) : Collector := l.foldl add {}

theorem addAll_concat (l : List Contribution) (x : Contribution) :
    addAll (l ++ [x]) = (addAll l).add x := by
  rw [addAll, foldl_append]
  rfl

theorem holds_addAll (l : List Contribution) : (addAll l).Holds l := by
  induction l using List.reverseRecOn with
  | nil => exact holds_new
  | append_singleton l x ih =>
    rw [addAll_concat]
    exact ih.add x

theorem lookup_addAll (l : List Contribution) (c : ClientId) :
    (addAll l).v5Rels.lookup c =
      (l.filter (Contribution.isOfClient c)).foldl (fun o x => some (x.merge o)) none := by
  induction l using List.reverseRecOn with
  | nil => rfl
  | append_singleton l x ih =>
    rw [addAll_concat, add, filter_append, foldl_append, ← ih]
    by_cases hv3 : x.opts.isV3 = true
    · rw [if_pos hv3]
      simp [Contribution.isOfClient, hv3]
    · rw [if_neg hv3, Map.lookup_insert']
      by_cases hc : x.clientId = c
      · subst hc
        simp [Contribution.isOfClient, hv3]
      · rw [if_neg (Ne.symm hc)]
        simp [Contribution.isOfClient, hc]

end Collector

def SubRelation.isOfClient (c : ClientId) (e : SubRelation) : Bool := !e.opts.isV3 && e.clientId = c

theorem Collector.filter_into_addAll (w : Walk ClientId V5Relation) {c : ClientId}
    {l l' : List Contribution} {x : Contribution}
    (h : l.filter (Contribution.isOfClient c) = x :: l') :
    ∃ e : SubRelation, ((addAll l).into w).filter (SubRelation.isOfClient c) = [e] ∧
      e.opts = x.opts ∧ e.group = x.group ∧
      e.subIds.getD [] = (x :: l').filterMap fun x => x.opts.subscriptionIdentifier := by
  have hx : Contribution.isOfClient c x = true :=
    (mem_filter.1 (h ▸ mem_cons_self : x ∈ l.filter (Contribution.isOfClient c))).2
  have hv5 : x.opts.isV3 = false := by
    simp only [Contribution.isOfClient, Bool.and_eq_true, Bool.not_eq_true'] at hx
    exact hx.1
  have hmerged := (holds_addAll l).v5Rels c
  have hlookup := lookup_addAll l c
  rw [h, foldl_cons] at hlookup
  obtain ⟨subIds, hfold⟩ := Contribution.foldl_merge_some (x.merge none) l'
  rw [hfold] at hlookup
  rw [hlookup, h] at hmerged
  refine ⟨⟨x.topicFilter, c, x.opts, subIds, x.group⟩, ?_, rfl, rfl, hmerged.2⟩
  rw [into, filter_append]
  -- the other relations are of MQTT 3 or of other clients
  have hv3 : (addAll l).v3Rels.filter (SubRelation.isOfClient c) = [] := by
    rw [(holds_addAll l).v3Rels]
    refine filter_eq_nil_iff.2 fun e he => ?_
    obtain ⟨y, hy, rfl⟩ := mem_map.1 he
    simp [SubRelation.isOfClient, Contribution.v3Relation, (mem_filter.1 hy).2]
  rw [hv3, nil_append]
  have hnodup : (((w.list (addAll l).v5Rels).map fun e => (⟨e.2.topicFilter, e.1, e.2.opts,
      e.2.subIds, e.2.group⟩ : SubRelation)).map SubRelation.clientId).Nodup := by
    rw [map_map]
    exact w.nodupKeys (addAll l).v5Rels
  refine filter_eq_singleton hnodup ?_ ?_ ?_
  · exact mem_map.2 ⟨⟨c, _⟩, w.mem_list.2 hlookup, rfl⟩
  · simp [SubRelation.isOfClient, hv5]
  · intro e _ he
    simp only [SubRelation.isOfClient, Bool.and_eq_true, decide_eq_true_eq] at he
    exact he.2

/-! ## The order of the subscriptions -/

theorem Codec.QoS.not_lt_self (a : QoS) : ¬ a < a := by cases a <;> decide

theorem Codec.QoS.eq_of_not_lt {a b : QoS} (h : ¬ a < b) (h' : ¬ b < a) : a = b := by
  revert h h'
  cases a <;> cases b <;> decide

theorem Contribution.retainAsPublished_of_isOfClient {l : List Contribution} {c : ClientId}
    {x : Contribution} (h : x ∈ l.filter (isOfClient c)) :
    ∃ b, x.opts.retainAsPublished = some b := by
  have hx := (mem_filter.1 h).2
  cases hopts : x.opts with
  | v3 opts => simp [isOfClient, hopts, SubscriptionOptions.isV3] at hx
  | v5 opts => exact ⟨opts.retainAsPublished, rfl⟩

/-- The relation carries what the subscriptions `l` of its client ask for together. -/
structure SubRelation.Unites (e : SubRelation) (l : List Contribution) : Prop where
  qos_mem : ∃ x ∈ l, e.opts.qos = x.opts.qos
  qos_max : ∀ x ∈ l, ¬ e.opts.qos < x.opts.qos
  retainAsPublished :
    e.opts.retainAsPublished = some (l.any fun x => x.opts.retainAsPublished = some true)
  subIds : ∀ subId, subId ∈ e.subIds.getD [] ↔ ∃ x ∈ l, x.opts.subscriptionIdentifier = some subId
  group_mem : ∃ x ∈ l, e.group = x.group
  group : ∀ x ∈ l, x.group ≠ none → e.group = x.group

/-- The client has one relation, which unites its subscriptions among `l`. -/
def Collector.United (w : Walk ClientId V5Relation) (c : ClientId) (l : List Contribution) : Prop :=
  ∃ e : SubRelation, ((addAll l).into w).filter (SubRelation.isOfClient c) = [e] ∧
    e.Unites (l.filter (Contribution.isOfClient c))

/-- The two subscriptions ask for the same but for the identifier. -/
def Contribution.Concordant (x y : Contribution) : Prop :=
  x.opts.qos = y.opts.qos ∧ x.opts.retainAsPublished = y.opts.retainAsPublished ∧ x.group = y.group

instance (x y : Contribution) : Decidable (x.Concordant y) := inferInstanceAs (Decidable (_ ∧ _))


namespace Collector

variable (w : Walk ClientId V5Relation) {c : ClientId} {l l' : List Contribution} {x : Contribution}

theorem united_of_concordant (h : l.filter (Contribution.isOfClient c) = x :: l')
    (hall : ∀ y ∈ x :: l', x.Concordant y) : United w c l := by
  obtain ⟨e, he, hopts, hgroup, hsubIds⟩ := filter_into_addAll w h
  refine ⟨e, he, ?_⟩
  rw [h]
  have hx : x ∈ x :: l' := mem_cons_self
  refine ⟨⟨x, hx, by rw [hopts]⟩, ?_, ?_, ?_, ⟨x, hx, hgroup⟩, ?_⟩
  · intro y hy
    rw [hopts, (hall y hy).1]
    exact QoS.not_lt_self _
  · obtain ⟨b, hb⟩ : ∃ b, x.opts.retainAsPublished = some b :=
      Contribution.retainAsPublished_of_isOfClient (h ▸ hx)
    rw [hopts, hb, Option.some_inj]
    cases b with
    | true => exact (any_eq_true.2 ⟨x, hx, decide_eq_true hb⟩).symm
    | false =>
      refine (any_eq_false.2 fun y hy => ?_).symm
      simp [← (hall y hy).2.1, hb]
  · intro subId
    rw [hsubIds, mem_filterMap]
  · intro y hy _
    rw [hgroup, (hall y hy).2.2]

/-- What the first subscription must be like for the relation to be the right one. -/
theorem United.first (hunited : United w c l) (h : l.filter (Contribution.isOfClient c) = x :: l') :
    ∀ y ∈ x :: l', ¬ x.opts.qos < y.opts.qos ∧ (y.group ≠ none → x.group = y.group) ∧
      x.opts.retainAsPublished =
        some ((x :: l').any fun z => z.opts.retainAsPublished = some true) := by
  obtain ⟨e, he, hunites⟩ := hunited
  obtain ⟨e', he', hopts, hgroup, -⟩ := filter_into_addAll w h
  obtain rfl : e = e' := singleton_inj.1 (he.symm.trans he')
  rw [h] at hunites
  intro y hy
  rw [← hopts, ← hgroup]
  exact ⟨hunites.qos_max y hy, hunites.group y hy, hunites.retainAsPublished⟩

/-- The relation of an MQTT 5 client is the right one in every order exactly if any two of its
subscriptions ask for the same QoS, retain-as-published and group. -/
theorem united_iff (w : Walk ClientId V5Relation) (c : ClientId) (l : List Contribution) :
    (∀ l', l'.Perm l → l'.filter (Contribution.isOfClient c) ≠ [] → United w c l') ↔
      ∀ x ∈ l.filter (Contribution.isOfClient c), ∀ y ∈ l.filter (Contribution.isOfClient c),
        x.Concordant y := by
  constructor
  · intro h
    -- every subscription can be the first
    have hfirst : ∀ x ∈ l.filter (Contribution.isOfClient c),
        ∀ y ∈ l.filter (Contribution.isOfClient c), ¬ x.opts.qos < y.opts.qos ∧
          (y.group ≠ none → x.group = y.group) ∧ x.opts.retainAsPublished =
            some ((l.filter (Contribution.isOfClient c)).any fun z =>
              z.opts.retainAsPublished = some true) := by
      intro x hx y hy
      obtain ⟨hxl, hxc⟩ := mem_filter.1 hx
      obtain ⟨before, after, rfl⟩ := append_of_mem hxl
      have hperm : (x :: (before ++ after)).Perm (before ++ x :: after) := perm_middle.symm
      have hfilter := filter_cons_of_pos (l := before ++ after) hxc
      have hperm' := hperm.filter (Contribution.isOfClient c)
      obtain ⟨hqos, hgroup, hretain⟩ := (h _ hperm (by simp [hfilter])).first w hfilter y
        (hfilter ▸ hperm'.mem_iff.2 hy)
      rw [← hfilter, hperm'.any_eq] at hretain
      exact ⟨hqos, hgroup, hretain⟩
    intro x hx y hy
    obtain ⟨hqos, hgroup, hretain⟩ := hfirst x hx y hy
    obtain ⟨hqos', hgroup', hretain'⟩ := hfirst y hy x hx
    refine ⟨QoS.eq_of_not_lt hqos hqos', hretain.trans hretain'.symm, ?_⟩
    by_cases hnone : y.group = none
    · by_contra hne
      exact hne (hgroup' fun hx => hne (hx.trans hnone.symm)).symm
    · exact hgroup hnone
  · intro h l' hperm hne
    have hperm' := hperm.filter (Contribution.isOfClient c)
    obtain ⟨x, rest, hfilter⟩ := exists_cons_of_ne_nil hne
    refine united_of_concordant w hfilter fun y hy => h x ?_ y ?_
    · exact hperm'.mem_iff.1 (hfilter ▸ mem_cons_self)
    · exact hperm'.mem_iff.1 (hfilter ▸ hy)

def ofQos (topicFilter : TopicFilter) (qos : QoS) : Contribution where
  nodeId := 1
  topicFilter := topicFilter
  clientId := "c"
  opts := .v5 ⟨qos, none, none, false, false, .atSubscribe, none⟩
  group := none

/-- The client has subscribed to `a/b` with QoS 1 and to `a/+` with QoS 0.  If the latter comes first,
its messages are sent with QoS 0. -/
theorem sent_with_smaller_qos :
    ¬ United Walk.sorted "c" [ofQos "a/+" .atMostOnce, ofQos "a/b" .atLeastOnce] := by
  intro h
  exact (h.first Walk.sorted rfl _ (mem_cons_of_mem _ mem_cons_self)).1 (by decide)

end Collector

end FerroMq
