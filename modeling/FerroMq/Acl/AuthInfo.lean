import FerroMq.Lib.Replace
import FerroMq.Session.Subscribe
import FerroMq.Topic.Within

/-!
# Rules that come with the authentication of a client

`acl.rs`: rules that an authentication plugin hands over with a client.  The topic of a rule, a text or a
filter, is filled in with the names of the client when the rule is read.  A subscription is looked up as if its
filter was a topic, which gives no more than the rule covers if it has no `#` (`isMatch_of_subscription`).
-/

namespace FerroMq.Auth

open Lib Codec

inductive ConfigError
  /-- "username does not exist" -/
  | noUsername
  /-- "ACL Rule config error, topic config is .." -/
  | topicConfig (topicCfg : String)
  | topic (e : TopicError)

structure Topic where
  eqTopicFilter : Option String
  topicFilter : Option FerroMq.Topic

def placeholderUsername : String := "${username}"

def placeholderClientid : String := "${clientid}"

def replaces (topicCfg : String) (id : Id) : Except ConfigError String :=
  match strContains topicCfg placeholderUsername, strContains topicCfg placeholderClientid with
  | true, true =>
    match id.username with
    | some username =>
      .ok (strReplace (strReplace topicCfg placeholderUsername username) placeholderClientid id.clientId)
    | none => .error .noUsername
  | true, false =>
    match id.username with
    | some username => .ok (strReplace topicCfg placeholderUsername username)
    | none => .error .noUsername
  | false, true => .ok (strReplace topicCfg placeholderClientid id.clientId)
  | false, false => .ok topicCfg

/-- `topic_cfg.strip_prefix("eq ")` -/
def stripEq (topicCfg : String) : Option String :=
  if "eq ".toList.isPrefixOf topicCfg.toList then some (String.ofList (topicCfg.toList.drop 3)) else none

namespace Topic

def tryFrom (topicCfg : String) (id : Id) : Except ConfigError Topic :=
  match stripEq topicCfg with
  | some stripped => do
    let eq ← replaces stripped id
    .ok ⟨some eq, none⟩
  | none =>
    if topicCfg ≠ "" then do
      let text ← replaces topicCfg id
      match FerroMq.Topic.fromStr text with
      | .ok t => .ok ⟨none, some t⟩
      | .error e => .error (.topic e)
    else .error (.topicConfig topicCfg)

def isMatch (self : Topic) (topic : String) : Bool :=
  match self.eqTopicFilter with
  | some eqTopicFilter => eqTopicFilter = topic
  | none =>
    match self.topicFilter with
    | some topicFilter => topicFilter.matchesStr topic
    | none => false

theorem within_of_covers {f g : List Level} (h : Covers g f) (hf : .multiWildcard ∉ f) : Within f g := by
  induction h with
  | nil => exact .nil
  | multi t => exact .multi t
  | single l _ ih =>
    rw [List.mem_cons, not_or] at hf
    exact .single (Ne.symm hf.1) (ih hf.2)
  | exact hl _ ih => exact .exact hl (ih (List.not_mem_of_not_mem_cons hf))

/-- A rule whose filter matches the text of a subscription without `#` matches all topics of the
subscription. -/
theorem isMatch_of_subscription (g f : Filter) {s : String} (hs : FerroMq.Topic.fromStr s = .ok f.1)
    (hf : .multiWildcard ∉ f.1.levels) (h : isMatch ⟨none, some g.1⟩ s = true) (t : TopicName)
    (ht : f.1.Matches t.1) : isMatch ⟨none, some g.1⟩ t.1.toStr = true := by
  refine (g.matchesStr_iff t.fromStr_toStr).2 ?_
  rcases (g.matchesStr_iff hs).1 h with ⟨hcovers, hshield⟩ | hplus
  · have hinside : Contained false f.1 g.1 :=
      .inr ⟨.inl (within_of_covers hcovers hf), hshield, fun h => by cases h⟩
    exact .inl (reaches_false_iff.1 (reaches_imp_iff.2 hinside t (.inl ht)))
  · have hinside : Contained true f.1 g.1 := .inl ⟨rfl, hplus⟩
    exact (reaches_imp_iff.2 hinside t (.inl ht)).imp_right And.right

/-- The filter `+`, subscribed to with the rule `#`. -/
theorem isMatch_of_subscription_plus : isMatch ⟨none, some ⟨[.multiWildcard]⟩⟩ "a" = true :=
  isMatch_of_subscription ⟨⟨[.multiWildcard]⟩, ⟨"#", by decide⟩⟩ ⟨⟨[.singleWildcard]⟩, ⟨"+", by decide⟩⟩
    (s := "+") (by decide) (by decide) (by decide) ⟨⟨[.normal "a"]⟩, ⟨"a", by decide⟩, by decide⟩
    ⟨.single _ .nil, by rintro ⟨_, _, _, ⟨⟩, _, ⟨⟩⟩⟩

end Topic

end FerroMq.Auth
