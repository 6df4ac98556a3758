import FerroMq.Acl.Rule

/-!
# Placeholders in the rules of the plugin

`AclHandler::hook` of `ferromq-acl` for `ClientConnected` fills in the placeholders of every rule.  Filters are
added to the tree of the rule under the client id; texts go into a set that all clients share (`Becomes`).
-/

namespace FerroMq.Acl

open Lib Codec

def fillPlaceholders (id : Id) (topic : String) : String :=
  let topic := strReplace topic Topics.phC id.clientId
  match id.username with
  | some un => strReplace topic Topics.phU un
  | none => strReplace topic Topics.phU ""

namespace Rule

def addPlaceholder (id : Id) (acc : Rule × List String) (topic : String) : Rule × List String :=
  let tf := fillPlaceholders id topic
  (match acc.1.addTopicFilter tf id.clientId with
    | .ok rule => rule
    | .error _ => acc.1, acc.2 ++ [tf])

/-- The placeholders of a rule for a client that connects, with the texts for the cache. -/
def buildPlaceholders (id : Id) (self : Rule) : Rule × List String :=
  let (rule, caches) := self.topics.placeholders.foldl (addPlaceholder id) (self, [])
  (self.topics.eqPlaceholders.foldl (fun rule topic => rule.addTopicToEqs (fillPlaceholders id topic)) rule,
    caches)

end Rule

/-! ## What is seen of a rule -/

theorem Topics.mem_iter_iff (self : Topics) {t : Topic} (ht : MultiLast t.levels) (f : List Level)
    (v : WithBot ClientId) : (∃ item ∈ self.tree.iter t, item.1 = f ∧ v ∈ item.2) ↔
      v ∈ self.tree.get f ∧ (⟨f⟩ : Topic).Matches t :=
  TopicTree.mem_iter_iff (fun f hf => (self.parsed f hf).multiLast) ht f v

theorem Topics.isMatch_iff (self : Topics) {t : Topic} (ht : MultiLast t.levels) (s : String)
    (clientId : ClientId) : self.isMatch t s clientId = true ↔ self.all = true ∨ s ∈ self.eqs ∨
      ∃ f : Topic, (↑clientId ∈ self.tree.get f.levels ∨ ⊥ ∈ self.tree.get f.levels) ∧ f.Matches t := by
  have hiter : ((self.tree.iter t).any fun item => item.2.any fun cid => cid = ↑clientId || cid = ⊥) = true ↔
      ∃ f, (∃ item ∈ self.tree.iter t, item.1 = f ∧ ↑clientId ∈ item.2) ∨
        ∃ item ∈ self.tree.iter t, item.1 = f ∧ ⊥ ∈ item.2 := by
    simp only [List.any_eq_true, Bool.or_eq_true, decide_eq_true_eq]
    grind
  rw [isMatch, Bool.or_eq_true, Bool.or_eq_true, decide_eq_true_iff, hiter, or_assoc]
  refine or_congr_right (or_congr_right ⟨?_, ?_⟩)
  · rintro ⟨f, h⟩
    rw [self.mem_iter_iff ht, self.mem_iter_iff ht, ← or_and_right] at h
    exact ⟨⟨f⟩, h⟩
  · rintro ⟨f, h⟩
    refine ⟨f.levels, ?_⟩
    rwa [self.mem_iter_iff ht, self.mem_iter_iff ht, ← or_and_right]

namespace Rule

structure Alike (r r' : Rule) : Prop where
  access : r'.access = r.access
  users : r'.users = r.users
  control : r'.control = r.control
  all : r'.topics.all = r.topics.all
  placeholders : r'.topics.placeholders = r.topics.placeholders
  eqPlaceholders : r'.topics.eqPlaceholders = r.topics.eqPlaceholders

theorem Alike.refl (r : Rule) : Alike r r := ⟨rfl, rfl, rfl, rfl, rfl, rfl⟩

theorem Alike.trans {r₁ r₂ r₃ : Rule} (h : Alike r₁ r₂) (h' : Alike r₂ r₃) : Alike r₁ r₃ :=
  ⟨h'.access.trans h.access, h'.users.trans h.users, h'.control.trans h.control, h'.all.trans h.all,
    h'.placeholders.trans h.placeholders, h'.eqPlaceholders.trans h.eqPlaceholders⟩

/-- `f` is one of the filters that a rule gets for a client. -/
def Fills (r : Rule) (id : Id) (f : List Level) : Prop :=
  ∃ topic ∈ r.topics.placeholders, Topic.fromStr (fillPlaceholders id topic) = .ok ⟨f⟩

def eqTexts (r : Rule) (id : Id) : Finset String :=
  (r.topics.eqPlaceholders.map (fillPlaceholders id)).toFinset

/-- What has become of a rule: the texts it has, and the filters with their clients. -/
structure Becomes (r r' : Rule) (eqs : Finset String) (has : List Level → WithBot ClientId → Prop) : Prop where
  alike : Alike r r'
  eqs : r'.topics.eqs = eqs
  mem_get_iff : ∀ f v, v ∈ r'.topics.tree.get f ↔ has f v

theorem addPlaceholder_becomes (id : Id) (acc : Rule × List String) (topic : String) :
    acc.1.Becomes (addPlaceholder id acc topic).1 acc.1.topics.eqs fun f v =>
      v ∈ acc.1.topics.tree.get f ∨
        v = ↑id.clientId ∧ Topic.fromStr (fillPlaceholders id topic) = .ok ⟨f⟩ := by
  unfold addPlaceholder addTopicFilter
  dsimp only
  split
  · next rule h =>
    split at h
    · next t ht =>
      cases h
      refine ⟨⟨rfl, rfl, rfl, rfl, rfl, rfl⟩, rfl, fun f v => ?_⟩
      change v ∈ (acc.1.topics.tree.insert t _).1.get f ↔ _
      rw [TopicTree.get_insert, ht, Except.ok.injEq, eq_comm (a := t), TopicTree.mk_eq_iff]
      split_ifs with hf
      · simp [hf, or_comm]
      · simp [hf]
    · cases h
  · next e h =>
    split at h
    · cases h
    · next e' he => exact ⟨.refl _, rfl, fun f v => by simp [he]⟩

theorem foldl_addPlaceholder (id : Id) (topics : List String) (acc : Rule × List String) :
    acc.1.Becomes (topics.foldl (addPlaceholder id) acc).1 acc.1.topics.eqs (fun f v =>
        v ∈ acc.1.topics.tree.get f ∨ v = ↑id.clientId ∧
          ∃ topic ∈ topics, Topic.fromStr (fillPlaceholders id topic) = .ok ⟨f⟩) ∧
      (topics.foldl (addPlaceholder id) acc).2 = acc.2 ++ topics.map (fillPlaceholders id) := by
  induction topics generalizing acc with
  | nil => exact ⟨⟨.refl _, rfl, by simp⟩, by simp⟩
  | cons topic topics ih =>
    have hfirst := addPlaceholder_becomes id acc topic
    obtain ⟨hrest, hcaches⟩ := ih (addPlaceholder id acc topic)
    refine ⟨⟨hfirst.alike.trans hrest.alike, hrest.eqs.trans hfirst.eqs, fun f v => ?_⟩, ?_⟩
    · rw [List.foldl_cons, hrest.mem_get_iff, hfirst.mem_get_iff, List.exists_mem_cons_iff, or_assoc,
        ← and_or_left]
    · rw [List.foldl_cons, hcaches, addPlaceholder, List.append_assoc]
      rfl

theorem foldl_addTopicToEqs (id : Id) (topics : List String) (r : Rule) :
    r.Becomes (topics.foldl (fun rule topic => rule.addTopicToEqs (fillPlaceholders id topic)) r)
      (r.topics.eqs ∪ (topics.map (fillPlaceholders id)).toFinset) (fun f v => v ∈ r.topics.tree.get f) := by
  induction topics generalizing r with
  | nil => exact ⟨.refl _, by simp, fun _ _ => Iff.rfl⟩
  | cons topic topics ih =>
    have hrest := ih (r.addTopicToEqs (fillPlaceholders id topic))
    have hfirst : Alike r (r.addTopicToEqs (fillPlaceholders id topic)) := ⟨rfl, rfl, rfl, rfl, rfl, rfl⟩
    refine ⟨hfirst.trans hrest.alike, hrest.eqs.trans ?_, hrest.mem_get_iff⟩
    rw [List.map_cons, List.toFinset_cons, Finset.union_insert, ← Finset.insert_union]
    rfl

theorem buildPlaceholders_becomes (id : Id) (r : Rule) :
    r.Becomes (r.buildPlaceholders id).1 (r.topics.eqs ∪ r.eqTexts id) fun f v =>
      v ∈ r.topics.tree.get f ∨ v = ↑id.clientId ∧ r.Fills id f := by
  have hfilters := (foldl_addPlaceholder id r.topics.placeholders (r, [])).1
  have heqs := foldl_addTopicToEqs id r.topics.eqPlaceholders
    (r.topics.placeholders.foldl (addPlaceholder id) (r, [])).1
  exact ⟨hfilters.alike.trans heqs.alike, heqs.eqs.trans (by rw [hfilters.eqs, eqTexts]),
    fun f v => (heqs.mem_get_iff f v).trans (hfilters.mem_get_iff f v)⟩

end Rule

end FerroMq.Acl
