import FerroMq.Router.Default

/-!
# Concurrent calls of the router

`add` and `remove` calls, interleaved at the sections under a lock.  A `remove` whose subscriber was the last
one deletes the entry and the filter in two later sections without looking again, so a subscriber that comes in
between is lost (`lost`); otherwise nothing is (`not_lost`).
-/

namespace FerroMq

open Lib
open Function (update update_self update_of_ne)

namespace DefaultRouter

/-- How far a call has come. -/
inductive Task
  | idle
  | start (x : Call)
  | insertRelation (topicFilter : TopicFilter) (id : Id) (opts : SubscriptionOptions)
  | removeRelation (topicFilter : TopicFilter)
  | removeTopic (topicFilter : TopicFilter)
  deriving DecidableEq

namespace Task

def next (r : DefaultRouter) : Task → Task × DefaultRouter
  | idle => (idle, r)
  | start (.add f id opts) =>
    match Topic.fromStr f with
    | .ok topic => (insertRelation f id opts, r.insertTopic topic)
    | .error _ => (idle, r)
  | insertRelation f id opts => (idle, r.insertRelation f id opts)
  | start (.remove f id) =>
    match r.removeSubscriber f id with
    | (some true, r) => (removeRelation f, r)
    | (_, r) => (idle, r)
  | removeRelation f => (removeTopic f, r.removeRelation f)
  | removeTopic f =>
    match Topic.fromStr f with
    | .ok topic => (idle, r.removeTopic topic)
    | .error _ => (idle, r)

/-- What the next section does to the subscribers: an `add` puts its subscriber in with its last
section, a `remove` takes it out with its first. -/
def effect : Task → Option Call
  | insertRelation f id opts => some (.add f id opts)
  | start (.remove f id) => some (.remove f id)
  | _ => none

def Inserting (f : TopicFilter) : Task → Prop
  | insertRelation g _ _ => g = f
  | _ => False

def Deleting (f : TopicFilter) : Task → Prop
  | removeRelation g | removeTopic g => g = f
  | _ => False

end Task

/-- The router and the calls that work on it.  The log lists the effects on the subscribers. -/
structure Shared where
  router : DefaultRouter := {}
  tasks : ℕ → Task := fun _ => .idle
  log : List Call := []

namespace Shared

inductive Action
  | call (k : ℕ) (x : Call)
  | advance (k : ℕ)

def exec (s : Shared) : Action → Shared
  | .call k x =>
    if s.tasks k = .idle then { s with tasks := Function.update s.tasks k (.start x) } else s
  | .advance k =>
    { router := ((s.tasks k).next s.router).2
      tasks := Function.update s.tasks k ((s.tasks k).next s.router).1
      log := s.log ++ (s.tasks k).effect.toList }

def run (s : Shared) (actions : List Action) : Shared := actions.foldl exec s

def Quiet (s : Shared) : Prop := ∀ k, s.tasks k = .idle

/-- A subscription whose `add` has completed, with no `remove` with its id and no other `add` of the
client for the filter since then, is in the relations and its filter is in the topic tree. -/
def Keeps (s : Shared) : Prop :=
  ∀ f i opts, LastThat (Call.Spares f i.clientId i) (.add f i opts) s.log →
    s.router.subscription f i.clientId = some (i, opts) ∧
      ∃ ks, IsFilter f ks ∧ s.router.topics.get ks ≠ ∅

/-- No `add` for a filter begins while the filter is being deleted, and no last subscriber of a filter
is taken out between the two sections of an `add` for it. -/
def Apart (s : Shared) : Action → Prop
  | .call .. => True
  | .advance k =>
    match s.tasks k with
    | .start (.add f _ _) => ∀ j, ¬ (s.tasks j).Deleting f
    | .start (.remove f id) =>
      (s.router.removeSubscriber f id).1 = some true → ∀ j, ¬ (s.tasks j).Inserting f
    | _ => True

/-- A call that is not interrupted, whatever other calls are in progress. -/
theorem router_run_alone (s : Shared) (k : ℕ) (x : Call) :
    (run { s with tasks := update s.tasks k .idle }
      [.call k x, .advance k, .advance k, .advance k]).router = s.router.call x := by
  simp only [run, List.foldl_cons, List.foldl_nil, exec, if_true, update_self, Function.update_idem]
  cases x with
  | add f id opts =>
    unfold DefaultRouter.call add
    rcases ht : Topic.fromStr f with e | t <;> simp [Task.next, ht]
  | remove f id =>
    unfold DefaultRouter.call remove
    rcases hs : s.router.removeSubscriber f id with ⟨_ | _ | _, r'⟩
    · simp [Task.next, hs]
    · simp [Task.next, hs]
    · rcases ht : Topic.fromStr f with e | t <;> simp [Task.next, hs, ht]

/-! ## The invariant -/

end Shared

def HasTopic (r : DefaultRouter) (f : TopicFilter) : Prop :=
  ∃ ks, IsFilter f ks ∧ r.topics.get ks ≠ ∅

section Sections

variable {r : DefaultRouter} {f g : TopicFilter} {t : Topic}

theorem HasTopic.insertTopic (h : r.HasTopic g) (t : Topic) : (r.insertTopic t).HasTopic g := by
  obtain ⟨ks, hks, hne⟩ := h
  refine ⟨ks, hks, ?_⟩
  rw [DefaultRouter.insertTopic, TopicTree.get_insert]
  split_ifs
  · exact Finset.insert_ne_empty _ _
  · exact hne

theorem hasTopic_insertTopic (ht : Topic.fromStr f = .ok t) : (r.insertTopic t).HasTopic f := by
  refine ⟨t.levels, ⟨t, ht, rfl⟩, ?_⟩
  rw [insertTopic, TopicTree.get_insert, if_pos rfl]
  exact Finset.insert_ne_empty _ _

theorem HasTopic.removeTopic (h : r.HasTopic g) (ht : Topic.fromStr f = .ok t) (hne : g ≠ f) :
    (r.removeTopic t).HasTopic g := by
  obtain ⟨ks, hks, hget⟩ := h
  refine ⟨ks, hks, ?_⟩
  rw [DefaultRouter.removeTopic, TopicTree.get_remove, if_neg]
  · exact hget
  · rintro rfl
    exact hne (hks.injective ⟨t, ht, rfl⟩)

theorem mem_removeSubscriber {id : Id} :
    g ∈ (r.removeSubscriber f id).2.relations ↔ g ∈ r.relations := by
  rcases h : r.removeSubscriber f id with ⟨_ | b, r'⟩
  · rw [removeSubscriber_eq_none h]
  · obtain ⟨rels, opts, hrels, -, -, rfl⟩ := removeSubscriber_eq_some h
    change g ∈ r.relations.insert f _ ↔ _
    rw [Finmap.mem_insert]
    refine ⟨fun hg => hg.elim (fun hg => ?_) fun hg => hg, Or.inr⟩
    rw [hg]
    exact Finmap.mem_of_lookup_eq_some hrels

theorem mem_removeRelation : g ∈ (r.removeRelation f).relations ↔ g ≠ f ∧ g ∈ r.relations := by
  unfold removeRelation
  split_ifs with h
  · exact Finmap.mem_erase
  · refine ⟨fun hg => ⟨?_, hg⟩, fun hg => hg.2⟩
    rintro rfl
    exact h (Finmap.lookup_isSome.2 hg)

end Sections

namespace Shared

/-- What holds between the sections if insertions and deletions are kept apart. -/
structure Inv (s : Shared) : Prop where
  records : s.router.Records s.log
  filters : ∀ f i opts, .add f i opts ∈ s.log → ∃ ks, IsFilter f ks
  topics : ∀ f ∈ s.router.relations, s.router.HasTopic f
  inserting : ∀ k f, (s.tasks k).Inserting f →
    s.router.HasTopic f ∧ ∀ j, ¬ (s.tasks j).Deleting f
  removeRelation : ∀ k f, s.tasks k = .removeRelation f → ∀ c, s.router.subscription f c = none
  removeTopic : ∀ k f, s.tasks k = .removeTopic f → f ∉ s.router.relations

theorem inv_new : Inv {} where
  records := records_new
  filters _ _ _ h := nomatch h
  topics _ h := absurd h Finmap.notMem_empty
  inserting _ _ h := h.elim
  removeRelation _ _ h := nomatch h
  removeTopic _ _ h := nomatch h

variable {s : Shared} {k : ℕ}

theorem Inv.step (h : Inv s) {r' : DefaultRouter} {t' : Task} {log' : List Call}
    (records : r'.Records log') (filters : ∀ f i opts, .add f i opts ∈ log' → ∃ ks, IsFilter f ks)
    (topics : ∀ f ∈ r'.relations, r'.HasTopic f)
    (there : ∀ j ≠ k, ∀ f,
      ((s.tasks j).Inserting f → r'.HasTopic f) ∧
      (s.tasks j = .removeRelation f → ∀ c, r'.subscription f c = none) ∧
      (s.tasks j = .removeTopic f → f ∉ r'.relations))
    (inserting : ∀ f, t'.Inserting f → r'.HasTopic f ∧ ∀ j, ¬ (s.tasks j).Deleting f := by
      exact fun _ hf => hf.elim)
    (deleting : ∀ f, t'.Deleting f → ∀ j ≠ k, ¬ (s.tasks j).Inserting f := by exact fun _ hf => hf.elim)
    (removeRelation : ∀ f, t' = .removeRelation f → ∀ c, r'.subscription f c = none := by exact nofun)
    (removeTopic : ∀ f, t' = .removeTopic f → f ∉ r'.relations := by exact nofun) :
    Inv { router := r', tasks := update s.tasks k t', log := log' } where
  records := records
  filters := filters
  topics := topics
  inserting j f hj := by
    dsimp only at hj ⊢
    have hk : ∀ j', (update s.tasks k t' j').Deleting f ↔
        (j' = k ∧ t'.Deleting f) ∨ (j' ≠ k ∧ (s.tasks j').Deleting f) := fun j' => by
      rcases eq_or_ne j' k with rfl | hne
      · simp
      · simp [hne]
    rcases eq_or_ne j k with rfl | hne
    · rw [update_self] at hj
      refine ⟨(inserting f hj).1, fun j' hj' => ?_⟩
      rcases (hk j').1 hj' with ⟨-, hd⟩ | ⟨-, hd⟩
      · cases t' <;> first | exact hj.elim | exact hd.elim
      · exact (inserting f hj).2 j' hd
    · rw [update_of_ne hne] at hj
      refine ⟨(there j hne f).1 hj, fun j' hj' => ?_⟩
      rcases (hk j').1 hj' with ⟨-, hd⟩ | ⟨-, hd⟩
      · exact deleting f hd j hne hj
      · exact (h.inserting j f hj).2 j' hd
  removeRelation j f hj := by
    dsimp only at hj
    rcases eq_or_ne j k with rfl | hne
    · rw [update_self] at hj
      exact removeRelation f hj
    · rw [update_of_ne hne] at hj
      exact (there j hne f).2.1 hj
  removeTopic j f hj := by
    dsimp only at hj
    rcases eq_or_ne j k with rfl | hne
    · rw [update_self] at hj
      exact removeTopic f hj
    · rw [update_of_ne hne] at hj
      exact (there j hne f).2.2 hj

theorem Inv.return (h : Inv s) :
    Inv { router := s.router, tasks := update s.tasks k .idle, log := s.log } :=
  h.step h.records h.filters h.topics fun j _ f =>
    ⟨fun hj => (h.inserting j f hj).1, h.removeRelation j f, h.removeTopic j f⟩

variable {f : TopicFilter}

theorem Inv.insertTopic (h : Inv s) {t : Topic} (ht : Topic.fromStr f = .ok t)
    (id : Id) (opts : SubscriptionOptions) (hapart : ∀ j, ¬ (s.tasks j).Deleting f) :
    Inv { router := s.router.insertTopic t
          tasks := update s.tasks k (.insertRelation f id opts), log := s.log } := by
  refine h.step (h.records.congr fun _ _ => rfl) h.filters
    (fun g hg => (h.topics g hg).insertTopic t)
    (fun j _ g => ⟨fun hj => (h.inserting j g hj).1.insertTopic t, h.removeRelation j g,
      h.removeTopic j g⟩) fun g hg => ?_
  obtain rfl : f = g := hg
  exact ⟨hasTopic_insertTopic ht, hapart⟩

theorem Inv.insertRelation (h : Inv s) {id : Id} {opts : SubscriptionOptions}
    (hk : s.tasks k = .insertRelation f id opts) :
    Inv { router := s.router.insertRelation f id opts, tasks := update s.tasks k .idle,
          log := s.log ++ [.add f id opts] } := by
  obtain ⟨htopic, hapart⟩ := h.inserting k f (by rw [hk]; rfl)
  have hfilter : ∃ ks, IsFilter f ks := htopic.imp fun _ hks => hks.1
  have hmem (g : TopicFilter) : g ∈ (s.router.insertRelation f id opts).relations ↔
      g = f ∨ g ∈ s.router.relations := Finmap.mem_insert
  refine h.step (h.records.insertRelation hfilter id opts) (fun g i o hg => ?_) (fun g hg => ?_)
    fun j _ g => ⟨fun hj => (h.inserting j g hj).1, fun hj c => ?_, fun hj hg => ?_⟩
  · rcases List.mem_append.1 hg with hg | hg
    · exact h.filters g i o hg
    · cases List.mem_singleton.1 hg
      exact hfilter
  · rcases (hmem g).1 hg with rfl | hg
    · exact htopic
    · exact h.topics g hg
  · rw [subscription_insertRelation, if_neg]
    · exact h.removeRelation j g hj c
    · rintro ⟨rfl, -⟩
      exact hapart j (by rw [hj]; rfl)
  · rcases (hmem g).1 hg with rfl | hg
    · exact hapart j (by rw [hj]; rfl)
    · exact h.removeTopic j g hj hg

theorem Inv.removeSubscriber (h : Inv s) {id : Id} {t' : Task}
    (ht' : t' = .idle ∨ t' = .removeRelation f ∧ (s.router.removeSubscriber f id).1 = some true)
    (hapart : (s.router.removeSubscriber f id).1 = some true → ∀ j, ¬ (s.tasks j).Inserting f) :
    Inv { router := (s.router.removeSubscriber f id).2
          tasks := update s.tasks k t', log := s.log ++ [.remove f id] } := by
  have htopics : (s.router.removeSubscriber f id).2.topics = s.router.topics := by
    rcases hs : s.router.removeSubscriber f id with ⟨_ | b, r'⟩
    · rw [removeSubscriber_eq_none hs]
    · obtain ⟨rels, opts, -, -, -, rfl⟩ := removeSubscriber_eq_some hs
      rfl
  have hkeep (g : TopicFilter) (hg : s.router.HasTopic g) :
      (s.router.removeSubscriber f id).2.HasTopic g := by
    rw [HasTopic, htopics]
    exact hg
  have hfilters (g : TopicFilter) (i : Id) (o : SubscriptionOptions)
      (hg : .add g i o ∈ s.log ++ [.remove f id]) : ∃ ks, IsFilter g ks := by
    rcases List.mem_append.1 hg with hg | hg
    · exact h.filters g i o hg
    · cases List.mem_singleton.1 hg
  refine h.step (h.records.removeSubscriber f id) hfilters
    (fun g hg => hkeep g (h.topics g (mem_removeSubscriber.1 hg)))
    (fun j _ g => ⟨fun hj => hkeep g (h.inserting j g hj).1, fun hj c => ?_,
      fun hj hg => h.removeTopic j g hj (mem_removeSubscriber.1 hg)⟩)
    (fun g hg => ?_) (fun g hg => ?_) (fun g hg => ?_) fun g hg => ?_
  · rw [subscription_removeSubscriber]
    split_ifs
    · rfl
    · exact h.removeRelation j g hj c
  · rcases ht' with rfl | ⟨rfl, -⟩ <;> exact hg.elim
  · rcases ht' with rfl | ⟨rfl, hempty⟩
    · exact hg.elim
    · obtain rfl : f = g := hg
      exact fun j _ => hapart hempty j
  · rcases ht' with rfl | ⟨rfl, hempty⟩
    · cases hg
    · cases hg
      intro c
      rcases hs : s.router.removeSubscriber f id with ⟨_ | b, r'⟩
      · rw [hs] at hempty
        cases hempty
      · rw [hs] at hempty
        cases hempty
        exact subscription_of_emptied hs c
  · rcases ht' with rfl | ⟨rfl, -⟩ <;> cases hg

theorem Inv.removeRelation_step (h : Inv s) (hk : s.tasks k = .removeRelation f) :
    Inv { router := s.router.removeRelation f
          tasks := update s.tasks k (.removeTopic f), log := s.log } := by
  have hnone := h.removeRelation k f hk
  have hsub (g : TopicFilter) (c : ClientId) :
      (s.router.removeRelation f).subscription g c = s.router.subscription g c := by
    rw [subscription_removeRelation]
    split_ifs with hg
    · rw [hg, hnone c]
    · rfl
  have htopics : (s.router.removeRelation f).topics = s.router.topics := by
    unfold DefaultRouter.removeRelation
    split_ifs <;> rfl
  have hkeep (g : TopicFilter) (hg : s.router.HasTopic g) :
      (s.router.removeRelation f).HasTopic g := by
    rw [HasTopic, htopics]
    exact hg
  refine h.step (h.records.congr hsub) h.filters
    (fun g hg => hkeep g (h.topics g (mem_removeRelation.1 hg).2))
    (fun j _ g => ⟨fun hj => hkeep g (h.inserting j g hj).1, fun hj c => ?_,
      fun hj hg => h.removeTopic j g hj (mem_removeRelation.1 hg).2⟩)
    (fun _ hg => hg.elim) (fun g hg j _ hj => ?_) nofun fun g hg => ?_
  · rw [hsub]
    exact h.removeRelation j g hj c
  · obtain rfl : f = g := hg
    exact (h.inserting j f hj).2 k (by rw [hk]; rfl)
  · cases hg
    exact fun hg => (mem_removeRelation.1 hg).1 rfl

theorem Inv.removeTopic_step (h : Inv s) {t : Topic}
    (ht : Topic.fromStr f = .ok t) (hk : s.tasks k = .removeTopic f) :
    Inv { router := s.router.removeTopic t, tasks := update s.tasks k .idle,
          log := s.log } := by
  have hne {g : TopicFilter} (hg : g ∈ s.router.relations) : g ≠ f := by
    rintro rfl
    exact h.removeTopic k g hk hg
  refine h.step (h.records.congr fun _ _ => rfl) h.filters
    (fun g hg => (h.topics g hg).removeTopic ht (hne hg))
    fun j _ g => ⟨fun hj => ?_, h.removeRelation j g, h.removeTopic j g⟩
  obtain ⟨htopic, hapart⟩ := h.inserting j g hj
  refine htopic.removeTopic ht ?_
  rintro rfl
  exact hapart k (by rw [hk]; rfl)

theorem Inv.advance (h : Inv s) (ha : s.Apart (.advance k)) : Inv (s.exec (.advance k)) := by
  unfold Shared.exec
  unfold Apart at ha
  rcases hk : s.tasks k with _ | (⟨f, id, opts⟩ | ⟨f, id⟩) | ⟨f, id, opts⟩ | f | f
  all_goals simp only [hk, Task.next, Task.effect, Option.toList, List.append_nil] at ha ⊢
  · exact h.return
  · rcases ht : Topic.fromStr f with e | t
    · exact h.return
    · exact h.insertTopic ht id opts ha
  · have hstep (t' : Task) (ht' : t' = .idle ∨
        t' = .removeRelation f ∧ (s.router.removeSubscriber f id).1 = some true) :=
      h.removeSubscriber (k := k) ht' ha
    rcases hs : s.router.removeSubscriber f id with ⟨_ | _ | _, r'⟩
    all_goals rw [hs] at hstep
    · exact hstep .idle (.inl rfl)
    · exact hstep .idle (.inl rfl)
    · exact hstep (.removeRelation f) (.inr ⟨rfl, rfl⟩)
  · exact h.insertRelation hk
  · exact h.removeRelation_step hk
  · rcases ht : Topic.fromStr f with e | t
    · exact h.return
    · exact h.removeTopic_step ht hk

theorem Inv.exec (h : Inv s) {a : Action} (ha : s.Apart a) : Inv (s.exec a) := by
  cases a with
  | call k x =>
    rw [Shared.exec]
    split_ifs with hk
    · exact h.step h.records h.filters h.topics fun j _ f =>
         ⟨fun hj => (h.inserting j f hj).1, h.removeRelation j f, h.removeTopic j f⟩
    · exact h
  | advance k => exact h.advance ha

theorem Inv.keeps (h : Inv s) : s.Keeps := by
  intro f i opts hlast
  have hfilter : ∃ ks, IsFilter f ks := by
    obtain ⟨pre, post, hlog, -⟩ := hlast
    exact h.filters f i opts (by rw [hlog]; simp)
  have hsub := (h.records f i.clientId i opts).2 ⟨hfilter, rfl, hlast⟩
  exact ⟨hsub, h.topics f (mem_of_subscription hsub)⟩

theorem Inv.run (h : Inv s) {actions : List Action} (ha : Along Shared.exec Apart s actions) :
    Inv (s.run actions) :=
  ha.invariant (fun _ _ ha hs => hs.exec ha) h

/-- Nothing is lost in a run that keeps insertions and deletions apart. -/
theorem not_lost (actions : List Action) (ha : Along exec Apart {} actions) :
    (Shared.run {} actions).Keeps :=
  (inv_new.run ha).keeps

/-- Two clients that subscribe to one filter at the same time. -/
theorem not_lost_two_adds :
    let x := Id.ofClient 1 "x" 0
    let y := Id.ofClient 1 "y" 0
    (Shared.run {} [.call 0 (.add "a" x default), .call 1 (.add "a" y default), .advance 0,
      .advance 1, .advance 1, .advance 0]).Keeps :=
  not_lost _ ⟨trivial, trivial, fun | 0 | 1 | _ + 2 => id, fun | 0 | 1 | _ + 2 => id, trivial,
    trivial, trivial⟩

/-- The subscriber that comes after the last one has been taken out and before the entry is deleted
is lost, with its `add` completed and no `remove` for it. -/
theorem lost :
    let x := Id.ofClient 1 "x" 0
    let y := Id.ofClient 1 "y" 0
    let s := Shared.run {} [.call 0 (.add "a" x default), .advance 0, .advance 0,
      .call 1 (.remove "a" x), .advance 1, .call 2 (.add "a" y default), .advance 2, .advance 2,
      .advance 1, .advance 1]
    s.Quiet ∧ s.log = [.add "a" x default, .remove "a" x, .add "a" y default] ∧ ¬ s.Keeps := by
  intro x y s
  have hlog : s.log = [.add "a" x default, .remove "a" x, .add "a" y default] := by decide +kernel
  refine ⟨?_, hlog, fun h => ?_⟩
  · intro k
    match k with
    | 0 | 1 | 2 => decide +kernel
    | _ + 3 => rfl
  · have hlast : LastThat (Call.Spares "a" y.clientId y) (.add "a" y default) s.log := by
      rw [hlog]
      exact ⟨[.add "a" x default, .remove "a" x], [], rfl, fun _ hb => nomatch hb⟩
    have hnone : s.router.subscription "a" y.clientId = none := by decide +kernel
    rw [(h _ _ _ hlast).1] at hnone
    cases hnone

end Shared

end DefaultRouter

end FerroMq
