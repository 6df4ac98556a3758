import FerroMq.Codec.V5.Packet
import FerroMq.Lib.History
import FerroMq.Lib.Map

/-!
# Topic aliases

`ClientTopicAliases` compares the limit of the aliases with their number (`agrees_iff`, `accepted_above_limit`).
`ServerTopicAliases` gives aliases to the first topics that are sent; a message without properties cannot carry
one, so its topic or its alias is lost (`transparent_iff`, `topic_lost`).
-/

namespace FerroMq

open Lib Codec Nat
open Function (update update_self update_of_ne)

/-! ## Aliases of the client -/

/-- `MqttError::PublishAckReason` -/
structure PublishRefusal where
  reasonCode : V5.PublishAckReason
  reasonString : String
  deriving DecidableEq

structure ClientTopicAliases where
  maxTopicAliases : ℕ
  aliases : Map NonZeroU16 String

namespace ClientTopicAliases

def new (maxTopicAliases : ℕ) : ClientTopicAliases := ⟨maxTopicAliases, ∅⟩

def setAndGet (self : ClientTopicAliases) (topicAlias : Option NonZeroU16) (topic : String) :
    Except PublishRefusal String × ClientTopicAliases :=
  match topicAlias with
  | some topicAlias =>
    if topic = "" then
      match self.aliases.lookup topicAlias with
      | some topic => (.ok topic, self)
      | none => (.error ⟨.implementationSpecificError,
          "implementation specific error, the ‘topic‘ associated with the ‘alias‘ was not found"⟩, self)
    else
      match self.aliases.lookup topicAlias with
      | some _ => (.ok topic, { self with aliases := self.aliases.insert topicAlias topic })
      | none =>
        if self.aliases.keys.card ≥ self.maxTopicAliases then
          (.error ⟨.implementationSpecificError,
            "implementation specific error, the number of topic aliases exceeds the limit (" ++
              toString self.maxTopicAliases ++ ")"⟩, self)
        else (.ok topic, { self with aliases := self.aliases.insert topicAlias topic })
  | none =>
    if topic = "" then (.error ⟨.implementationSpecificError,
      "implementation specific error, ‘alias’ and ‘topic’ are both empty"⟩, self)
    else (.ok topic, self)

/-- What a table of aliases does, for aliases up to a limit.  The result is `none` if the pair is
rejected. -/
def resolve (limit : ℕ) (bindings : NonZeroU16 → Option String) (topicAlias : Option NonZeroU16)
    (topic : String) : Option String × (NonZeroU16 → Option String) :=
  match topicAlias with
  | some a =>
    if limit < a.1.toNat then (none, bindings)
    else if topic = "" then (bindings a, bindings)
    else (some topic, Function.update bindings a (some topic))
  | none => (if topic = "" then none else some topic, bindings)

/-- The table of the broker, and the one that it should be. -/
structure Inbound where
  table : ClientTopicAliases
  bindings : NonZeroU16 → Option String

namespace Inbound

def start (limit : ℕ) : Inbound := ⟨.new limit, fun _ => none⟩

def step (s : Inbound) (x : Option NonZeroU16 × String) : Inbound where
  table := (s.table.setAndGet x.1 x.2).2
  bindings := (resolve s.table.maxTopicAliases s.bindings x.1 x.2).2

/-- The broker answers as it should, and has the aliases that it should have. -/
structure Agrees (s : Inbound) (x : Option NonZeroU16 × String) : Prop where
  answer : (s.table.setAndGet x.1 x.2).1.toOption =
    (resolve s.table.maxTopicAliases s.bindings x.1 x.2).1
  bindings : ∀ a, (s.step x).table.aliases.lookup a = (s.step x).bindings a

/-- A topic comes with an alias above the limit only if there are as many aliases as the limit allows. -/
def Rejectable (s : Inbound) (x : Option NonZeroU16 × String) : Prop :=
  ∀ a ∈ x.1, s.table.maxTopicAliases < a.1.toNat → x.2 ≠ "" →
    s.table.maxTopicAliases ≤ s.table.aliases.keys.card

/-- The tables are equal, and all aliases are within the limit. -/
structure Equal (s : Inbound) : Prop where
  bindings : ∀ a, s.table.aliases.lookup a = s.bindings a
  limit : ∀ a ∈ s.table.aliases.keys, a.1.toNat ≤ s.table.maxTopicAliases

variable {s : Inbound} {a : NonZeroU16} {topic : String}

theorem Equal.card_lt (h : Equal s) (ha : a.1.toNat ≤ s.table.maxTopicAliases)
    (hnew : a ∉ s.table.aliases.keys) : s.table.aliases.keys.card < s.table.maxTopicAliases := by
  have hinj : Function.Injective fun a : NonZeroU16 => a.1.toNat :=
    fun _ _ heq => Subtype.ext (UInt16.toNat_inj.1 heq)
  have hmaps : ∀ b ∈ insert a s.table.aliases.keys,
      b.1.toNat ∈ Finset.Icc 1 s.table.maxTopicAliases := by
    intro b hb
    have hpos : b.1.toNat ≠ 0 := fun hzero => b.2 (UInt16.toNat_inj.1 hzero)
    rw [Finset.mem_Icc]
    rcases Finset.mem_insert.1 hb with rfl | hb
    · omega
    · have := h.limit b hb
      omega
  have hcard := Finset.card_le_card_of_injOn _ hmaps hinj.injOn
  rw [Finset.card_insert_of_notMem hnew, card_Icc] at hcard
  omega

theorem Equal.lookup_above (h : Equal s) (ha : s.table.maxTopicAliases < a.1.toNat) :
    s.table.aliases.lookup a = none := by
  refine Finmap.lookup_eq_none.2 fun hmem => ?_
  have hle := h.limit a (Finmap.mem_keys.2 hmem)
  omega

theorem Equal.setAndGet_within (h : Equal s) (ha : a.1.toNat ≤ s.table.maxTopicAliases)
    (htopic : topic ≠ "") :
    s.table.setAndGet (some a) topic =
      (.ok topic, { s.table with aliases := s.table.aliases.insert a topic }) := by
  unfold setAndGet
  dsimp only
  rw [if_neg htopic]
  cases hlookup : s.table.aliases.lookup a with
  | some _ => rfl
  | none =>
    have hnew : a ∉ s.table.aliases.keys := fun hmem =>
      Finmap.lookup_eq_none.1 hlookup (Finmap.mem_keys.1 hmem)
    have hroom := h.card_lt ha hnew
    dsimp only
    rw [if_neg (Nat.not_le_of_lt hroom)]

/-- A topic with an alias above the limit is rejected if there is no room, and else accepted. -/
theorem Equal.setAndGet_above (h : Equal s) (ha : s.table.maxTopicAliases < a.1.toNat)
    (htopic : topic ≠ "") :
    (s.table.maxTopicAliases ≤ s.table.aliases.keys.card ∧
      ∃ e, s.table.setAndGet (some a) topic = (.error e, s.table)) ∨
    (s.table.aliases.keys.card < s.table.maxTopicAliases ∧
      (s.table.setAndGet (some a) topic).1 = .ok topic) := by
  unfold setAndGet
  dsimp only
  rw [if_neg htopic, h.lookup_above ha]
  dsimp only
  rcases lt_or_ge s.table.aliases.keys.card s.table.maxTopicAliases with hroom | hfull
  · rw [if_neg (Nat.not_le_of_lt hroom)]
    exact .inr ⟨hroom, rfl⟩
  · rw [if_pos hfull]
    exact .inl ⟨hfull, _, rfl⟩

theorem Equal.setAndGet_unchanged (h : Equal s) {x : Option NonZeroU16 × String}
    (hx : x.1 = none ∨ x.2 = "") :
    (s.table.setAndGet x.1 x.2).2 = s.table ∧
      (resolve s.table.maxTopicAliases s.bindings x.1 x.2).2 = s.bindings ∧
      (s.table.setAndGet x.1 x.2).1.toOption =
        (resolve s.table.maxTopicAliases s.bindings x.1 x.2).1 := by
  obtain ⟨topicAlias, topic⟩ := x
  unfold setAndGet resolve
  cases topicAlias with
  | none =>
    dsimp only
    split_ifs <;> exact ⟨rfl, rfl, rfl⟩
  | some a =>
    obtain rfl : topic = "" := hx.resolve_left nofun
    dsimp only
    rw [if_pos rfl, if_pos rfl, ← h.bindings a]
    split_ifs with ha
    · rw [h.lookup_above ha]
      exact ⟨rfl, rfl, rfl⟩
    · cases s.table.aliases.lookup a <;> exact ⟨rfl, rfl, rfl⟩

/-- What a step can do: nothing, bind an alias within the limit in both tables, or accept an alias above
the limit. -/
theorem Equal.cases (h : Equal s) (x : Option NonZeroU16 × String) :
    (s.step x = s ∧ s.Agrees x ∧ s.Rejectable x) ∨
    (∃ a, a.1.toNat ≤ s.table.maxTopicAliases ∧
      s.step x = ⟨{ s.table with aliases := s.table.aliases.insert a x.2 },
        update s.bindings a (some x.2)⟩ ∧ s.Agrees x ∧ s.Rejectable x) ∨
    (¬ s.Agrees x ∧ ¬ s.Rejectable x) := by
  obtain ⟨topicAlias, topic⟩ := x
  -- Without a change of the tables, agreement is about the answer.
  have hsame {x : Option NonZeroU16 × String} (htable : (s.table.setAndGet x.1 x.2).2 = s.table)
      (hbindings : (resolve s.table.maxTopicAliases s.bindings x.1 x.2).2 = s.bindings)
      (hanswer : (s.table.setAndGet x.1 x.2).1.toOption =
        (resolve s.table.maxTopicAliases s.bindings x.1 x.2).1) : s.step x = s ∧ s.Agrees x := by
    have hstep : s.step x = s := by
      unfold step
      rw [htable, hbindings]
    refine ⟨hstep, hanswer, ?_⟩
    rw [hstep]
    exact h.bindings
  by_cases hx : topicAlias = none ∨ topic = ""
  · obtain ⟨htable, hbindings, hanswer⟩ := h.setAndGet_unchanged (x := (topicAlias, topic)) hx
    obtain ⟨hstep, hagrees⟩ := hsame htable hbindings hanswer
    refine .inl ⟨hstep, hagrees, fun a ha _ htopic => ?_⟩
    rcases hx with rfl | htopic'
    · exact nomatch ha
    · exact absurd htopic' htopic
  obtain ⟨hsome, htopic⟩ := not_or.1 hx
  obtain ⟨a, rfl⟩ := Option.ne_none_iff_exists'.1 hsome
  rcases lt_or_ge s.table.maxTopicAliases a.1.toNat with ha | ha
  · have hresolve : resolve s.table.maxTopicAliases s.bindings (some a) topic = (none, s.bindings) :=
      if_pos ha
    rcases h.setAndGet_above ha htopic with ⟨hfull, e, heq⟩ | ⟨hroom, hok⟩
    · obtain ⟨hstep, hagrees⟩ := hsame (x := (some a, topic)) (by rw [heq]) (by rw [hresolve])
        (by rw [heq, hresolve]; rfl)
      exact .inl ⟨hstep, hagrees, fun _ _ _ _ => hfull⟩
    · refine .inr (.inr ⟨fun hagrees => ?_, fun hrejectable => ?_⟩)
      · have hanswer := hagrees.answer
        rw [hok, hresolve] at hanswer
        exact nomatch hanswer
      · exact absurd (hrejectable a rfl ha htopic) (Nat.not_le_of_lt hroom)
  · have hresolve : resolve s.table.maxTopicAliases s.bindings (some a) topic =
        (some topic, update s.bindings a (some topic)) := by
      unfold resolve
      dsimp only
      rw [if_neg (Nat.not_lt_of_le ha), if_neg htopic]
    have hset := h.setAndGet_within ha htopic
    have hstep : s.step (some a, topic) =
        ⟨{ s.table with aliases := s.table.aliases.insert a topic },
          update s.bindings a (some topic)⟩ := by
      unfold step
      rw [hset, hresolve]
    refine .inr (.inl ⟨a, ha, hstep, ⟨?_, ?_⟩, ?_⟩)
    · rw [hset, hresolve]
      rfl
    · intro b
      rw [hstep]
      dsimp only
      rw [Map.lookup_insert', Function.update_apply, h.bindings b]
    · intro b hb hlt
      obtain rfl : a = b := Option.some.inj hb
      exact absurd ha (Nat.not_le_of_lt hlt)

theorem Equal.agrees_iff_rejectable (h : Equal s) (x : Option NonZeroU16 × String) :
    s.Agrees x ↔ s.Rejectable x := by
  rcases h.cases x with ⟨-, hagrees, hrejectable⟩ | ⟨a, -, -, hagrees, hrejectable⟩ |
    ⟨hagrees, hrejectable⟩
  · exact iff_of_true hagrees hrejectable
  · exact iff_of_true hagrees hrejectable
  · exact iff_of_false hagrees hrejectable

theorem Equal.step (h : Equal s) {x : Option NonZeroU16 × String} (hx : s.Rejectable x) :
    Equal (s.step x) := by
  rcases h.cases x with ⟨hstep, -⟩ | ⟨a, ha, hstep, hagrees, -⟩ | ⟨-, hnot⟩
  · rw [hstep]
    exact h
  · refine ⟨hagrees.bindings, ?_⟩
    rw [hstep]
    intro b hb
    rw [Map.keys_insert, Finset.mem_insert] at hb
    rcases hb with rfl | hb
    · exact ha
    · exact h.limit b hb
  · exact absurd hx hnot

/-- For every limit and every sequence of pairs, the broker resolves the aliases as it should exactly if
no alias above the limit comes with a topic while there is room in the table. -/
theorem agrees_iff (limit : UInt16) (pairs : List (Option NonZeroU16 × String)) :
    Along step Agrees (start limit.toNat) pairs ↔
      Along step Rejectable (start limit.toNat) pairs := by
  have hstart : Equal (start limit.toNat) :=
    ⟨fun a => Finmap.lookup_empty a, fun a ha => absurd ha (Finset.notMem_empty a)⟩
  exact along_congr Equal (fun _ _ hs hx => hs.step hx) (fun _ x hs => hs.agrees_iff_rejectable x)
    hstart pairs

/-- With the limit 1, the alias 5 is accepted, and then the alias 1 is not. -/
theorem accepted_above_limit :
    let five : NonZeroU16 := ⟨5, by decide⟩
    let s := (start 1).step (some five, "t")
    ((start 1).table.setAndGet (some five) "t").1.toOption = some "t" ∧
      s.table.aliases.lookup five = some "t" ∧
      (s.table.setAndGet (some V5.packetIdOne) "u").1.toOption = none := by
  decide +kernel

end Inbound

end ClientTopicAliases

/-! ## Aliases of the broker -/

structure ServerTopicAliases where
  maxTopicAliases : ℕ
  aliases : Map String NonZeroU16

namespace ServerTopicAliases

def new (maxTopicAliases : ℕ) : ServerTopicAliases := ⟨maxTopicAliases, ∅⟩

/-- The topic and the alias that are sent.  An alias that does not fit into 16 bits would be 0, which the
source takes to be impossible. -/
def get (self : ServerTopicAliases) (topic : String) :
    (Option String × Option NonZeroU16) × ServerTopicAliases :=
  if self.maxTopicAliases = 0 then ((some topic, none), self)
  else
    match self.aliases.lookup topic with
    | some topicAlias => ((none, some topicAlias), self)
    | none =>
      if self.aliases.keys.card ≥ self.maxTopicAliases then ((some topic, none), self)
      else if h : UInt16.ofNat (self.aliases.keys.card + 1) ≠ 0 then
        ((some topic, some ⟨_, h⟩), { self with aliases := self.aliases.insert topic ⟨_, h⟩ })
      else ((some topic, none), self)

/-- The topic has an alias, or there is no room for one, or it gets the next one. -/
theorem get_cases {self : ServerTopicAliases} {limit : UInt16}
    (hlimit : self.maxTopicAliases = limit.toNat) (hpos : limit > 0) (topic : String) :
    (∃ a, self.aliases.lookup topic = some a ∧ self.get topic = ((none, some a), self)) ∨
    (self.aliases.lookup topic = none ∧ limit.toNat ≤ self.aliases.keys.card ∧
      self.get topic = ((some topic, none), self)) ∨
    (self.aliases.lookup topic = none ∧ self.aliases.keys.card < limit.toNat ∧
      ∃ a : NonZeroU16, a.1.toNat = self.aliases.keys.card + 1 ∧
        self.get topic =
          ((some topic, some a), { self with aliases := self.aliases.insert topic a })) := by
  have hpos' : 0 < limit.toNat := UInt16.lt_iff_toNat_lt.1 hpos
  have hlt := limit.toNat_lt
  unfold get
  rw [if_neg (by omega), hlimit]
  cases hlookup : self.aliases.lookup topic with
  | some a => exact .inl ⟨a, rfl, rfl⟩
  | none =>
    dsimp only
    rcases lt_or_ge self.aliases.keys.card limit.toNat with hroom | hfull
    · have hnat : (UInt16.ofNat (self.aliases.keys.card + 1)).toNat = self.aliases.keys.card + 1 :=
        UInt16.toNat_ofNat_of_lt' (by change _ < 65536; omega)
      have hne : UInt16.ofNat (self.aliases.keys.card + 1) ≠ 0 := by
        intro hzero
        rw [hzero] at hnat
        exact nomatch hnat
      refine .inr (.inr ⟨rfl, hroom, ⟨_, hne⟩, hnat, ?_⟩)
      rw [if_neg (Nat.not_le_of_lt hroom), dif_pos hne]
    · rw [if_pos hfull]
      exact .inr (.inl ⟨rfl, hfull, rfl⟩)

end ServerTopicAliases

/-- `Sink::publish` for MQTT 5: the packet that is sent. -/
def Sink.publish (p : Publish) (messageExpiryInterval : Option NonZeroU32)
    (serverTopicAliases : Option ServerTopicAliases) : Publish × Option ServerTopicAliases :=
  let ((topic, topicAlias), serverTopicAliases) :=
    match serverTopicAliases with
    | some aliases =>
      let (sent, aliases) := aliases.get p.topic
      (sent, some aliases)
    | none => ((some p.topic, none), none)
  ({ p with
      topic := topic.getD ""
      properties := p.properties.map fun properties => { properties with messageExpiryInterval, topicAlias } },
    serverTopicAliases)

/-- A receiver of MQTT 5: the topic of a packet, or none if the packet has neither a topic nor an alias
that was bound before. -/
def receiveTopic (bindings : NonZeroU16 → Option String) (p : Publish) :
    Option String × (NonZeroU16 → Option String) :=
  match p.properties.bind PublishProperties.topicAlias with
  | some a =>
    if p.topic = "" then (bindings a, bindings)
    else (some p.topic, Function.update bindings a (some p.topic))
  | none => (if p.topic = "" then none else some p.topic, bindings)

section Receive

variable (bindings : NonZeroU16 → Option String) {p : Publish}

theorem receiveTopic_of_ne (h : p.topic ≠ "") :
    receiveTopic bindings p = (some p.topic,
      match p.properties.bind PublishProperties.topicAlias with
      | some a => update bindings a (some p.topic)
      | none => bindings) := by
  unfold receiveTopic
  cases p.properties.bind PublishProperties.topicAlias with
  | some a => exact if_neg h
  | none =>
    dsimp only
    rw [if_neg h]

theorem receiveTopic_of_empty (h : p.topic = "") :
    receiveTopic bindings p =
      ((p.properties.bind PublishProperties.topicAlias).bind bindings, bindings) := by
  unfold receiveTopic
  cases p.properties.bind PublishProperties.topicAlias with
  | some a => exact if_pos h
  | none =>
    dsimp only
    rw [if_pos h]
    rfl

end Receive

/-- The aliases of a connection as both sides have them, and what was delivered. -/
structure AliasedLink where
  server : Option ServerTopicAliases
  receiver : NonZeroU16 → Option String
  delivered : List Publish

namespace AliasedLink

def start (serverTopicAliasMax : UInt16) : AliasedLink where
  server := if serverTopicAliasMax > 0 then some (.new serverTopicAliasMax.toNat) else none
  receiver _ := none
  delivered := []

abbrev Message := {p : Publish // p.topic ≠ ""} × Option NonZeroU32

def sent (s : AliasedLink) (x : Message) : Publish := (Sink.publish x.1 x.2 s.server).1

def step (s : AliasedLink) (x : Message) : AliasedLink where
  server := (Sink.publish x.1 x.2 s.server).2
  receiver := (receiveTopic s.receiver (s.sent x)).2
  delivered := s.delivered ++ [x.1.1]

/-- The receiver obtains the topic of the message, and the alias is not above the maximum. -/
structure Transparent (serverTopicAliasMax : UInt16) (s : AliasedLink) (x : Message) : Prop where
  topic : (receiveTopic s.receiver (s.sent x)).1 = some x.1.1.topic
  topicAlias : ∀ a ∈ (s.sent x).properties.bind PublishProperties.topicAlias,
    a.1 ≤ serverTopicAliasMax

/-- If the topic has an alias, the message has properties, and so did all messages with this topic before
it. -/
def WithProperties (s : AliasedLink) (x : Message) : Prop :=
  (s.server.bind fun server => server.aliases.lookup x.1.1.topic).isSome = true →
    ∀ p ∈ x.1.1 :: s.delivered, p.topic = x.1.1.topic → p.properties.isSome = true

/-! ### What is sent -/

section Sent

variable {s : AliasedLink} {x : Message} {T T' : ServerTopicAliases} {topic : Option String}
  {topicAlias : Option NonZeroU16}

theorem sent_eq (hserver : s.server = some T) (hget : T.get x.1.1.topic = ((topic, topicAlias), T')) :
    (s.sent x).topic = topic.getD "" ∧
      (s.sent x).properties.bind PublishProperties.topicAlias =
        (if x.1.1.properties.isSome then topicAlias else none) ∧
      (s.step x).server = some T' := by
  unfold sent step Sink.publish
  rw [hserver]
  dsimp only
  rw [hget]
  refine ⟨rfl, ?_, rfl⟩
  cases x.1.1.properties <;> rfl

end Sent

/-! ### Both tables -/

/-- The broker has given the aliases from 1 on, each to one topic, and the receiver knows those whose
first message had properties. -/
structure Linked (limit : UInt16) (T : ServerTopicAliases) (receiver : NonZeroU16 → Option String)
    (delivered : List Publish) : Prop where
  limit_eq : T.maxTopicAliases = limit.toNat
  limit_pos : limit > 0
  card_le : T.aliases.keys.card ≤ limit.toNat
  alias_le : ∀ t a, T.aliases.lookup t = some a → a.1.toNat ≤ T.aliases.keys.card
  injective : ∀ t t' a, T.aliases.lookup t = some a → T.aliases.lookup t' = some a → t = t'
  known : ∀ t a, receiver a = some t → T.aliases.lookup t = some a
  bound : ∀ t a, T.aliases.lookup t = some a →
    (receiver a = some t ↔ ∀ p ∈ delivered, p.topic = t → p.properties.isSome = true)
  new : T.aliases.keys.card < limit.toNat → ∀ t, T.aliases.lookup t = none →
    ∀ p ∈ delivered, p.topic ≠ t

/-- Without a table, all topics are sent. -/
def Inv (limit : UInt16) (s : AliasedLink) : Prop :=
  ∀ T, s.server = some T → Linked limit T s.receiver s.delivered

theorem inv_start (limit : UInt16) : Inv limit (start limit) := by
  intro T hT
  unfold start at hT
  dsimp only at hT
  split_ifs at hT with hpos
  obtain rfl := Option.some.inj hT
  have hnone (t : String) : (ServerTopicAliases.new limit.toNat).aliases.lookup t = none :=
    Finmap.lookup_empty t
  exact {
    limit_eq := rfl
    limit_pos := hpos
    card_le := zero_le _
    alias_le t a h := nomatch (hnone t).symm.trans h
    injective t t' a h := nomatch (hnone t).symm.trans h
    known t a h := nomatch h
    bound t a h := nomatch (hnone t).symm.trans h
    new _ t _ p hp := nomatch hp }

section Linked

variable {limit : UInt16} {T : ServerTopicAliases} {receiver : NonZeroU16 → Option String}
  {delivered : List Publish} {p : Publish}

theorem Linked.keep (h : Linked limit T receiver delivered)
    (hprops : ∀ a, T.aliases.lookup p.topic = some a → p.properties.isSome = true)
    (hfull : T.aliases.lookup p.topic = none → limit.toNat ≤ T.aliases.keys.card) :
    Linked limit T receiver (delivered ++ [p]) := by
  refine { h with bound := fun t a ha => ?_, new := fun hroom t ht q hq => ?_ }
  · rw [h.bound t a ha, List.forall_mem_append, List.forall_mem_singleton]
    refine ⟨fun hold => ⟨hold, fun htopic => ?_⟩, fun hall => hall.1⟩
    exact hprops a (htopic ▸ ha)
  · rcases List.mem_append.1 hq with hq | hq
    · exact h.new hroom t ht q hq
    · rintro rfl
      rw [List.mem_singleton.1 hq] at ht
      exact absurd (hfull ht) (Nat.not_le_of_lt hroom)

theorem Linked.give (h : Linked limit T receiver delivered)
    (hnone : T.aliases.lookup p.topic = none) (hroom : T.aliases.keys.card < limit.toNat)
    {a : NonZeroU16} (ha : a.1.toNat = T.aliases.keys.card + 1) :
    Linked limit { T with aliases := T.aliases.insert p.topic a }
      (if p.properties.isSome then update receiver a (some p.topic) else receiver)
      (delivered ++ [p]) := by
  have hcard : (T.aliases.insert p.topic a).keys.card = T.aliases.keys.card + 1 := by
    rw [Map.card_keys_insert, hnone]
    rfl
  have hold {t : String} {b : NonZeroU16} (hb : T.aliases.lookup t = some b) :
      t ≠ p.topic ∧ b ≠ a := by
    refine ⟨?_, ?_⟩
    · rintro rfl
      exact nomatch hnone.symm.trans hb
    · rintro rfl
      have := h.alias_le t b hb
      omega
  have hunknown : ∀ t, receiver a ≠ some t := fun t ht => (hold (h.known t a ht)).2 rfl
  have hlookup {t : String} {b : NonZeroU16} (hb : (T.aliases.insert p.topic a).lookup t = some b) :
      t = p.topic ∧ b = a ∨ T.aliases.lookup t = some b := by
    rw [Map.lookup_insert'] at hb
    split_ifs at hb with ht
    · exact .inl ⟨ht, (Option.some.inj hb).symm⟩
    · exact .inr hb
  refine {
    limit_eq := h.limit_eq, limit_pos := h.limit_pos, card_le := hcard.trans_le hroom
    alias_le := fun t b hb => ?_, injective := fun t t' b hb hb' => ?_, known := fun t b hb => ?_
    bound := fun t b hb => ?_, new := fun hroom' t ht q hq => ?_ }
  · rw [hcard]
    rcases hlookup hb with ⟨-, rfl⟩ | hb
    · exact ha.le
    · exact (h.alias_le t b hb).trans (le_succ _)
  · rcases hlookup hb with ⟨ht, rfl⟩ | hb
    · rcases hlookup hb' with ⟨ht', -⟩ | hb'
      · exact ht.trans ht'.symm
      · exact absurd rfl (hold hb').2
    · rcases hlookup hb' with ⟨-, hba⟩ | hb'
      · exact absurd hba (hold hb).2
      · exact h.injective t t' b hb hb'
  · change (T.aliases.insert p.topic a).lookup t = some b
    have hkept (hb : receiver b = some t) : (T.aliases.insert p.topic a).lookup t = some b := by
      have hb' := h.known t b hb
      rw [Map.lookup_insert', if_neg (hold hb').1, hb']
    split_ifs at hb
    · rw [Function.update_apply] at hb
      split_ifs at hb with hba
      · rw [Map.lookup_insert', if_pos (Option.some.inj hb).symm, hba]
      · exact hkept hb
    · exact hkept hb
  · rw [List.forall_mem_append, List.forall_mem_singleton]
    rcases hlookup hb with ⟨rfl, rfl⟩ | hb
    · have hfirst : ∀ q ∈ delivered, q.topic = p.topic → q.properties.isSome = true :=
        fun q hq htopic => absurd htopic (h.new hroom _ hnone q hq)
      split_ifs with hprops
      · rw [update_self]
        exact iff_of_true rfl ⟨hfirst, fun _ => hprops⟩
      · exact iff_of_false (hunknown _) fun hall => hprops (hall.2 rfl)
    · obtain ⟨ht, hba⟩ := hold hb
      have hsame : (if p.properties.isSome then update receiver a (some p.topic)
          else receiver) b = receiver b := by
        split_ifs
        · exact update_of_ne hba _ _
        · rfl
      rw [hsame, h.bound t b hb]
      exact ⟨fun hall => ⟨hall, fun htopic => absurd htopic.symm ht⟩, fun hall => hall.1⟩
  · have hother : t ≠ p.topic ∧ T.aliases.lookup t = none := by
      change (T.aliases.insert p.topic a).lookup t = none at ht
      rw [Map.lookup_insert'] at ht
      split_ifs at ht with heq
      exact ⟨heq, ht⟩
    rcases List.mem_append.1 hq with hq | hq
    · exact h.new hroom t hother.2 q hq
    · rw [List.mem_singleton.1 hq]
      exact hother.1.symm

end Linked

/-! ### Runs -/

variable {limit : UInt16} {s : AliasedLink} {x : Message} {T : ServerTopicAliases}

theorem sent_topic (hserver : s.server = some T) {topicAlias : Option NonZeroU16}
    {T' : ServerTopicAliases} (hget : T.get x.1.1.topic = ((some x.1.1.topic, topicAlias), T')) :
    s.step x = ⟨some T', match if x.1.1.properties.isSome then topicAlias else none with
        | some a => update s.receiver a (some x.1.1.topic)
        | none => s.receiver, s.delivered ++ [x.1.1]⟩ ∧
      ((∀ a ∈ topicAlias, a.1 ≤ limit) → Transparent limit s x) := by
  obtain ⟨htopic, halias, hstep⟩ := sent_eq hserver hget
  have htopic' : (s.sent x).topic = x.1.1.topic := htopic
  have hreceive := receiveTopic_of_ne s.receiver (htopic'.trans_ne x.1.2)
  rw [halias, htopic'] at hreceive
  refine ⟨?_, fun hle => ⟨by rw [hreceive], fun a ha => hle a ?_⟩⟩
  · unfold step at hstep ⊢
    rw [hreceive]
    exact congrArg (AliasedLink.mk · _ _) hstep
  · rw [halias] at ha
    split_ifs at ha with hprops
    · exact ha
    · exact nomatch ha

theorem sent_alias (hserver : s.server = some T) {a : NonZeroU16}
    (hget : T.get x.1.1.topic = ((none, some a), T)) :
    s.step x = ⟨some T, s.receiver, s.delivered ++ [x.1.1]⟩ ∧
      (a.1 ≤ limit → (Transparent limit s x ↔
        x.1.1.properties.isSome = true ∧ s.receiver a = some x.1.1.topic)) := by
  obtain ⟨htopic, halias, hstep⟩ := sent_eq hserver hget
  have hreceive := receiveTopic_of_empty s.receiver htopic
  rw [halias] at hreceive
  refine ⟨?_, fun hle => ?_⟩
  · unfold step at hstep ⊢
    rw [hreceive]
    exact congrArg (AliasedLink.mk · _ _) hstep
  · constructor
    · intro htransparent
      have hobtained := htransparent.topic
      rw [hreceive] at hobtained
      split_ifs at hobtained with hprops
      · exact ⟨hprops, hobtained⟩
      · exact nomatch hobtained
    · rintro ⟨hprops, hbound⟩
      rw [if_pos hprops] at hreceive halias
      refine ⟨by rw [hreceive]; exact hbound, fun b hb => ?_⟩
      rw [halias] at hb
      exact Option.some.inj hb ▸ hle

theorem withProperties_iff (hserver : s.server = some T) {a : NonZeroU16}
    (ha : T.aliases.lookup x.1.1.topic = some a) (h : Linked limit T s.receiver s.delivered) :
    s.WithProperties x ↔ x.1.1.properties.isSome = true ∧ s.receiver a = some x.1.1.topic := by
  unfold WithProperties
  rw [hserver, Option.bind_some, ha, h.bound _ a ha, List.forall_mem_cons]
  exact ⟨fun hall => ⟨(hall rfl).1 rfl, (hall rfl).2⟩, fun hall _ => ⟨fun _ => hall.1, hall.2⟩⟩

theorem withProperties_of_none (hserver : s.server = some T)
    (hnone : T.aliases.lookup x.1.1.topic = none) : s.WithProperties x := by
  unfold WithProperties
  rw [hserver, Option.bind_some, hnone]
  exact nofun

theorem Linked.step (h : Linked limit T s.receiver s.delivered) (hserver : s.server = some T) :
    (Transparent limit s x ↔ s.WithProperties x) ∧ (s.WithProperties x → Inv limit (s.step x)) := by
  have hcard := h.card_le
  rcases T.get_cases h.limit_eq h.limit_pos x.1.1.topic with
    ⟨a, ha, hget⟩ | ⟨hnone, hfull, hget⟩ | ⟨hnone, hroom, a, ha, hget⟩
  · obtain ⟨hstep, htransparent⟩ := sent_alias hserver hget
    have hle : a.1 ≤ limit := UInt16.le_iff_toNat_le.2 ((h.alias_le _ a ha).trans hcard)
    have hiff := withProperties_iff hserver ha h
    refine ⟨(htransparent hle).trans hiff.symm, fun hwith => ?_⟩
    rw [hstep]
    intro T' hT'
    obtain rfl := Option.some.inj hT'
    exact h.keep (fun _ _ => (hiff.1 hwith).1) fun hnone => nomatch hnone.symm.trans ha
  · obtain ⟨hstep, htransparent⟩ := sent_topic hserver hget
    refine ⟨iff_of_true (htransparent nofun) (withProperties_of_none hserver hnone),
      fun _ => ?_⟩
    rw [hstep, ite_self]
    intro T' hT'
    obtain rfl := Option.some.inj hT'
    exact h.keep (fun _ hb => nomatch hnone.symm.trans hb) fun _ => hfull
  · obtain ⟨hstep, htransparent⟩ := sent_topic hserver hget
    have hle : ∀ b ∈ some a, b.1 ≤ limit := by
      intro b hb
      obtain rfl := Option.some.inj hb
      rw [UInt16.le_iff_toNat_le, ha]
      exact hroom
    refine ⟨iff_of_true (htransparent hle) (withProperties_of_none hserver hnone), fun _ => ?_⟩
    rw [hstep]
    intro T' hT'
    obtain rfl := Option.some.inj hT'
    have hgive := h.give hnone hroom ha
    dsimp only
    cases hprops : x.1.1.properties.isSome with
    | false | true =>
      rw [hprops] at hgive
      exact hgive

theorem transparent_of_none (hserver : s.server = none) :
    Transparent limit s x ∧ s.WithProperties x ∧ (s.step x).server = none := by
  have hsent : s.sent x = (Sink.publish x.1 x.2 none).1 := congrArg (fun t => (Sink.publish _ _ t).1) hserver
  have halias : (s.sent x).properties.bind PublishProperties.topicAlias = none := by
    rw [hsent]
    unfold Sink.publish
    cases x.1.1.properties <;> rfl
  have htopic : (s.sent x).topic = x.1.1.topic := by
    rw [hsent]
    rfl
  refine ⟨⟨?_, fun a ha => ?_⟩, fun h => ?_, ?_⟩
  · rw [receiveTopic_of_ne s.receiver (htopic.trans_ne x.1.2), htopic]
  · exact nomatch halias.symm.trans ha
  · rw [hserver] at h
    exact nomatch h
  · unfold step
    rw [hserver]
    rfl

theorem Inv.step (h : Inv limit s) (x : Message) :
    (Transparent limit s x ↔ s.WithProperties x) ∧ (s.WithProperties x → Inv limit (s.step x)) := by
  cases hserver : s.server with
  | none =>
    obtain ⟨htransparent, hwith, hstep⟩ := transparent_of_none hserver
    refine ⟨iff_of_true htransparent hwith, fun _ T hT => ?_⟩
    exact nomatch hstep.symm.trans hT
  | some T => exact (h T hserver).step hserver

/-- For every maximum and every sequence of messages with topics, the receiver obtains the topic of every
message, by aliases within the maximum, exactly if no message without properties has a topic that was
given an alias and comes more than once. -/
theorem transparent_iff (limit : UInt16) (messages : List Message) :
    Along step (Transparent limit) (start limit) messages ↔
      Along step WithProperties (start limit) messages :=
  along_congr (Inv limit) (fun _ x hs hx => (hs.step x).2 hx) (fun _ x hs => (hs.step x).1)
    (inv_start limit) messages

/-- Two messages of an MQTT 3.1.1 client on one topic. -/
theorem topic_lost :
    let x : Message := (⟨⟨false, false, .atMostOnce, "t", none, [], none⟩, by decide⟩, none)
    (receiveTopic (start 1).receiver ((start 1).sent x)).1 = some "t" ∧
      (((start 1).step x).sent x).topic = "" ∧
      (receiveTopic ((start 1).step x).receiver (((start 1).step x).sent x)).1 = none := by
  decide +kernel

end AliasedLink

end FerroMq
