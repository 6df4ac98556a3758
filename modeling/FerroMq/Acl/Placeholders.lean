import FerroMq.Acl.AuthInfo
import FerroMq.Acl.Plugin

/-!
# Placeholders in topics of rules

The names of the client are put into the topic of a rule as text, one placeholder after the other, before it is
parsed.  So they can bring in wildcards and further placeholders.  `RuleTopic.literal` is the rule in which
names stand for themselves; `covers_imp_literal_iff` says when a rule covers nothing else.
-/

namespace FerroMq.Acl

open Lib

/-- A topic of a rule: of the plugin, or of the rules that come with the authentication. -/
inductive RuleTopic
  | plugin (cfg : TopicCfg)
  | auth (topicCfg : String)

namespace RuleTopic

/-- The rule, made for a client, covers a topic. -/
def Covers (id : Id) (t : TopicName) : RuleTopic → Prop
  | plugin cfg => ∃ topics, Topics.tryFrom (some [cfg]) = .ok topics ∧
      (Rule.buildPlaceholders id ⟨.allow, [.all], .all, topics⟩).1.topics.isMatch t.1 t.1.toStr id.clientId = true
  | auth topicCfg => ∃ topic, Auth.Topic.tryFrom topicCfg id = .ok topic ∧ topic.isMatch t.1.toStr = true

end RuleTopic

/-! ## What a rule has become for a client -/

/-- A text to be compared as it is, or a filter. -/
inductive Reading
  | eq (text : String)
  | filter (sys : Bool) (text : String)

def Reading.Covers (t : TopicName) : Reading → Prop
  | eq text => t.1.toStr = text
  | filter sys text => ∃ f, Topic.fromStr text = .ok f ∧ Reaches sys f t.1

def RuleTopic.reading (id : Id) : RuleTopic → Option Reading
  | plugin (.filter topic) => some (.filter false (fillPlaceholders id topic))
  | plugin (.eq topic) => some (.eq (fillPlaceholders id topic))
  | auth topicCfg =>
    match Auth.stripEq topicCfg with
    | some stripped => (Auth.replaces stripped id).toOption.map .eq
    | none => if topicCfg = "" then none else (Auth.replaces topicCfg id).toOption.map (.filter true)

variable {topic : String} {id : Id} {t : TopicName}

theorem fillPlaceholders_eq_self (id : Id) (h : Topics.hasPlaceholder topic = false) :
    fillPlaceholders id topic = topic := by
  rw [Topics.hasPlaceholder, Bool.or_eq_false_iff] at h
  rw [fillPlaceholders, strReplace_eq_self _ h.2]
  cases id.username with
  | none | some un => exact strReplace_eq_self _ h.1

theorem isMatch_topics (topics : Topics) (id : Id) {t : Topic} (ht : MultiLast t.levels) (s : String) :
    (Rule.buildPlaceholders id ⟨.allow, [.all], .all, topics⟩).1.topics.isMatch t s id.clientId = true ↔
      topics.all = true ∨ (s ∈ topics.eqs ∨ s ∈ topics.eqPlaceholders.map (fillPlaceholders id)) ∨
        ∃ f : Topic, (↑id.clientId ∈ topics.tree.get f.levels ∨
          (∃ topic ∈ topics.placeholders, Topic.fromStr (fillPlaceholders id topic) = .ok f) ∨
          ⊥ ∈ topics.tree.get f.levels) ∧ f.Matches t := by
  have hb := Rule.buildPlaceholders_becomes id ⟨.allow, [.all], .all, topics⟩
  rw [Topics.isMatch_iff _ ht, hb.alike.all, hb.eqs, Finset.mem_union, Rule.eqTexts, List.mem_toFinset]
  simp only [hb.mem_get_iff, true_and, WithBot.bot_ne_coe, false_and, or_false, or_assoc, Rule.Fills]

theorem plugin_covers_of_tryFrom {cfg : TopicCfg} {topics : Topics}
    (h : (Topics.bare false).addCfg cfg = .ok topics) : RuleTopic.Covers id t (.plugin cfg) ↔
      topics.all = true ∨ (t.1.toStr ∈ topics.eqs ∨
          t.1.toStr ∈ topics.eqPlaceholders.map (fillPlaceholders id)) ∨
        ∃ f : Topic, (↑id.clientId ∈ topics.tree.get f.levels ∨
          (∃ topic ∈ topics.placeholders, Topic.fromStr (fillPlaceholders id topic) = .ok f) ∨
          ⊥ ∈ topics.tree.get f.levels) ∧ f.Matches t.1 := by
  have htry : Topics.tryFrom (some [cfg]) = .ok topics := by
    rw [Topics.tryFrom, List.foldlM_cons, h]
    rfl
  rw [← isMatch_topics topics id t.2.1.multiLast]
  constructor
  · rintro ⟨topics', htry', hmatch⟩
    cases htry.symm.trans htry'
    exact hmatch
  · exact fun hmatch => ⟨topics, htry, hmatch⟩

theorem plugin_filter_covers_iff : RuleTopic.Covers id t (.plugin (.filter topic)) ↔
      ∃ f, Topic.fromStr (fillPlaceholders id topic) = .ok f ∧ f.Matches t.1 := by
  by_cases hph : Topics.hasPlaceholder topic = true
  · have htry : (Topics.bare false).addCfg (.filter topic) =
        .ok { Topics.bare false with placeholders := [topic] } := by
      rw [Topics.addCfg, if_pos hph]
      rfl
    rw [plugin_covers_of_tryFrom htry]
    simp [Topics.bare, Payload.vacant]
  · rw [fillPlaceholders_eq_self id (Bool.eq_false_iff.2 hph)]
    cases h : Topic.fromStr topic with
    | ok f =>
      have htry : (Topics.bare false).addCfg (.filter topic) =
          .ok ((Topics.bare false).insert f ⟨topic, h⟩ ⊥) := by
        rw [Topics.addCfg, if_neg hph]
        split
        · next f' h' => cases h.symm.trans h'; rfl
        · next e h' => cases h.symm.trans h'
      have hget : ∀ (v : WithBot ClientId) (f' : Topic),
          v ∈ (TopicTree.insert Trie.empty f ⊥).1.get f'.levels ↔ f' = f ∧ v = ⊥ := by
        intro v f'
        have hlevels : f'.levels = f.levels ↔ f' = f := TopicTree.mk_eq_iff.symm
        rw [TopicTree.get_insert]
        split_ifs with heq
        · simp [hlevels.1 heq, Payload.vacant]
        · simp [mt hlevels.2 heq, Payload.vacant]
      rw [plugin_covers_of_tryFrom htry]
      simp [Topics.insert, hget, Topics.bare]
    | error e =>
      refine iff_of_false ?_ (by simp)
      rintro ⟨topics, htry, -⟩
      rw [Topics.tryFrom, List.foldlM_cons, Topics.addCfg, if_neg hph] at htry
      split at htry
      · next f' h' => cases h.symm.trans h'
      · cases htry

theorem plugin_eq_covers_iff :
    RuleTopic.Covers id t (.plugin (.eq topic)) ↔ t.1.toStr = fillPlaceholders id topic := by
  by_cases hph : Topics.hasPlaceholder topic = true
  · have htry : (Topics.bare false).addCfg (.eq topic) =
        .ok { Topics.bare false with eqPlaceholders := [topic] } := by
      rw [Topics.addCfg, if_pos hph]
      rfl
    rw [plugin_covers_of_tryFrom htry]
    simp [Topics.bare, Payload.vacant]
  · rw [fillPlaceholders_eq_self id (Bool.eq_false_iff.2 hph)]
    have htry : (Topics.bare false).addCfg (.eq topic) = .ok ((Topics.bare false).addEq topic) := by
      rw [Topics.addCfg, if_neg hph]
    rw [plugin_covers_of_tryFrom htry]
    simp [Topics.addEq, Topics.bare, Payload.vacant]

theorem auth_covers_iff {topicCfg : String} :
    RuleTopic.Covers id t (.auth topicCfg) ↔ ∃ reading, RuleTopic.reading id (.auth topicCfg) = some reading ∧
      reading.Covers t := by
  unfold RuleTopic.Covers RuleTopic.reading Auth.Topic.tryFrom
  dsimp only
  cases Auth.stripEq topicCfg with
  | some stripped =>
    dsimp only
    cases Auth.replaces stripped id with
    | error e => simp [Except.toOption, bind, Except.bind]
    | ok text =>
      simp only [Except.toOption, bind, Except.bind, Except.ok.injEq, exists_eq_left', Auth.Topic.isMatch,
        decide_eq_true_eq, Option.map_some, Option.some.injEq, Reading.Covers]
      exact eq_comm
  | none =>
    dsimp only
    by_cases hempty : topicCfg = ""
    · simp [hempty]
    · rw [if_pos hempty, if_neg hempty]
      cases Auth.replaces topicCfg id with
      | error e => simp [Except.toOption, bind, Except.bind]
      | ok text =>
        simp only [Except.toOption, bind, Except.bind]
        cases h : Topic.fromStr text with
        | error e => simp [Reading.Covers, h]
        | ok f =>
          have hmatch := Filter.matchesStr_iff ⟨f, text, h⟩ (TopicName.fromStr_toStr t)
          simp [Reading.Covers, h, Auth.Topic.isMatch, Reaches, hmatch]

theorem RuleTopic.covers_iff_matches {r : RuleTopic} :
    r.Covers id t ↔ ∃ reading, r.reading id = some reading ∧ reading.Covers t := by
  match r with
  | .plugin (.filter topic) =>
    rw [plugin_filter_covers_iff]
    simp [reading, Reading.Covers, reaches_false_iff]
  | .plugin (.eq topic) =>
    rw [plugin_eq_covers_iff]
    simp [reading, Reading.Covers]
  | .auth topicCfg => exact auth_covers_iff

/-! ## Names as plain text -/

/-- A level of a text in which the characters of names are marked: only characters of the rule itself are
wildcards. -/
def literalLevel (w : List (Char × Bool)) : Level :=
  if w = [('+', false)] then .singleWildcard
  else if w = [('#', false)] then .multiWildcard
  else
    let s := String.ofList (w.map Prod.fst)
    if s = "" then .blank else if isMetadataStr s then .metadata s else .normal s

def literalText (w : List (Char × Bool)) : String := String.ofList (w.map Prod.fst)

def literalTopic (w : List (Char × Bool)) : Topic := ⟨(w.splitOnP fun c => c.1 = '/').map literalLevel⟩

namespace RuleTopic

/-- The placeholders of a rule and the names they stand for. -/
def names (id : Id) : RuleTopic → List (List Char × List Char)
  | plugin _ => [(Topics.phC.toList, id.clientId.toList), (Topics.phU.toList, (id.username.getD "").toList)]
  | auth _ => [(Auth.placeholderUsername.toList, (id.username.getD "").toList),
      (Auth.placeholderClientid.toList, id.clientId.toList)]

/-- The text of the rule with all placeholders filled in at once. -/
def filled (id : Id) (r : RuleTopic) (text : String) : List (Char × Bool) := fillAll (r.names id) 0 text.toList

/-- The topic that the rule is about if names stand for themselves. -/
def Literal (id : Id) (t : TopicName) (r : RuleTopic) : Prop :=
  match r with
  | plugin (.filter topic) => Reaches false (literalTopic (r.filled id topic)) t.1
  | plugin (.eq topic) => t.1.toStr = literalText (r.filled id topic)
  | auth topicCfg =>
    match Auth.stripEq topicCfg with
    | some stripped => t.1.toStr = literalText (r.filled id stripped)
    | none => Reaches true (literalTopic (r.filled id topicCfg)) t.1

/-- The text that has been filled in is no topic name, or the one with the names as plain text. -/
def SameText (text : String) (w : List (Char × Bool)) : Prop :=
  (∃ t : TopicName, t.1.toStr = text) → text = literalText w

/-- The text that has been filled in is no filter, or one that is contained in the one with the names as plain
text. -/
def NoMore (sys : Bool) (text : String) (w : List (Char × Bool)) : Prop :=
  ∀ f, Topic.fromStr text = .ok f → Contained sys f (literalTopic w)

/-- The names of the client act as plain text in the rule. -/
def ActsPlain (id : Id) (r : RuleTopic) : Prop :=
  match r with
  | plugin (.filter topic) => NoMore false (fillPlaceholders id topic) (r.filled id topic)
  | plugin (.eq topic) => SameText (fillPlaceholders id topic) (r.filled id topic)
  | auth topicCfg =>
    match Auth.stripEq topicCfg with
    | some stripped => ∀ text, Auth.replaces stripped id = .ok text → SameText text (r.filled id stripped)
    | none => topicCfg ≠ "" →
        ∀ text, Auth.replaces topicCfg id = .ok text → NoMore true text (r.filled id topicCfg)

end RuleTopic

theorem sameText_iff {text : String} {w : List (Char × Bool)} :
    (∀ t : TopicName, t.1.toStr = text → t.1.toStr = literalText w) ↔ RuleTopic.SameText text w := by
  constructor
  · rintro h ⟨t, ht⟩
    rw [← ht]
    exact h t ht
  · intro h t ht
    rw [ht]
    exact h ⟨t, ht⟩

theorem noMore_iff {sys : Bool} {text : String} {w : List (Char × Bool)} :
    (∀ t : TopicName, (∃ f, Topic.fromStr text = .ok f ∧ Reaches sys f t.1) → Reaches sys (literalTopic w) t.1) ↔
      RuleTopic.NoMore sys text w := by
  constructor
  · intro h f hf
    exact (reaches_imp_iff (f := ⟨f, text, hf⟩)).1 fun t ht => h t ⟨f, hf, ht⟩
  · rintro h t ⟨f, hf, ht⟩
    exact (reaches_imp_iff (f := ⟨f, text, hf⟩)).2 (h f hf) t ht

end FerroMq.Acl
