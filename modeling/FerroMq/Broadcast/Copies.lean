import FerroMq.Broadcast.Forward

/-!
# The copies of a message

`forwards_to` sends every subscriber a copy of the message.  The subscription identifiers replace those in the
message only if the message has properties and the subscription has an identifier (`wrong_identifiers`).
`rightCopies_iff` says that these are the only wrong copies.
-/

namespace FerroMq

open Lib Codec

def subscriptionIds (publish : Publish) : List NonZeroU32 :=
  (publish.properties.map PublishProperties.subscriptionIds).getD []

/-- `forwards_to`, with what it finds for every relation when it comes to it: if the client has a
session, and if the channel of the session is open. -/
def forwardEach (publish : Publish) : List (SubRelation × Option Bool) → Forwarding
  | [] => ⟨[], [], []⟩
  | (e, channel) :: l =>
    let rest := forwardEach publish l
    let p := e.forwarded publish
    match channel with
    | none => { rest with dropped := (e.clientId, p, .disconnected) :: rest.dropped }
    | some false => { rest with dropped := (e.clientId, p, .closed) :: rest.dropped }
    | some true =>
      { rest with sent := (e, p) :: rest.sent, recipients := e.recipients ++ rest.recipients }

theorem forwardsTo_eq_forwardEach (channel : ClientId → Option Bool) (publish : Publish)
    (es : List SubRelation) :
    forwardsTo channel publish es =
      forwardEach publish (es.map fun e => (e, channel e.clientId)) := by
  induction es with
  | nil => rfl
  | cons e es ih =>
    unfold forwardsTo
    rw [ih]
    rfl

/-! ## The header of a copy -/

namespace SubRelation

variable (e : SubRelation) (publish : Publish)

structure Header (copy : Publish) : Prop where
  topic : copy.topic = publish.topic
  payload : copy.payload = publish.payload
  dup : copy.dup = false
  packetId : copy.packetId = none
  qos : (toU8 copy.qos).toNat = min (toU8 publish.qos).toNat (toU8 e.opts.qos).toNat
  retain : copy.retain = true ↔ publish.retain = true ∧ e.opts.retainAsPublished = some true
  subscriptionIds : subscriptionIds copy = e.subIds.getD []

/-- The identifiers of the subscriptions can be put into the message, and if there are none, then the
publisher has set none. -/
def Identifiable : Prop :=
  match e.subIds with
  | some subIds => publish.properties.isSome = true ∨ subIds = []
  | none => FerroMq.subscriptionIds publish = []

theorem toNat_lessValue (a b : QoS) :
    (toU8 (a.lessValue b)).toNat = min (toU8 a).toNat (toU8 b).toNat := by
  cases a <;> cases b <;> rfl

theorem subscriptionIds_forwarded_iff :
    FerroMq.subscriptionIds (e.forwarded publish) = e.subIds.getD [] ↔ e.Identifiable publish := by
  unfold Identifiable FerroMq.subscriptionIds forwarded
  cases e.subIds with
  | none => rfl
  | some subIds =>
    cases publish.properties with
    | none => simp [eq_comm]
    | some properties => simp

theorem header_forwarded_iff : e.Header publish (e.forwarded publish) ↔ e.Identifiable publish := by
  rw [← subscriptionIds_forwarded_iff]
  refine ⟨Header.subscriptionIds, fun h => ⟨rfl, rfl, rfl, rfl, toNat_lessValue _ _, ?_, h⟩⟩
  unfold forwarded
  rcases e.opts.retainAsPublished with _ | _ | _ <;> simp

/-! ## The recipients -/

def recipient : ClientId × Option (TopicFilter × SharedGroup) :=
  (e.clientId, e.group.map fun g => (e.topicFilter, g.1))

def Member : Prop := ∀ g ∈ e.group, g.2.2.count e.clientId = 1

theorem count_recipients_iff : e.recipients.count e.recipient = 1 ↔ e.Member := by
  unfold Member recipient recipients
  cases hgroup : e.group with
  | none => simp
  | some g =>
    obtain ⟨group, online, cids⟩ := g
    have hinj : Function.Injective fun cid : ClientId =>
        (cid, if cid = e.clientId then some (e.topicFilter, group) else none) :=
      fun _ _ heq => (Prod.mk.inj heq).1
    have hcount := List.count_map_of_injective cids _ hinj e.clientId
    rw [if_pos rfl] at hcount
    simp [hcount]

end SubRelation

/-! ## All copies -/

theorem sent_forwardEach (publish : Publish) (l : List (SubRelation × Option Bool)) :
    (forwardEach publish l).sent = (l.filter fun x => x.2 = some true).map
      fun x => (x.1, x.1.forwarded publish) := by
  induction l with
  | nil => rfl
  | cons x l ih =>
    obtain ⟨e, _ | _ | _⟩ := x
    all_goals simpa [forwardEach] using ih

/-- Every copy is right, the recipients are those of the relations for which a copy was queued, each
with its own subscriber once, and every other relation is among the errors. -/
structure RightCopies (publish : Publish) (l : List (SubRelation × Option Bool)) : Prop where
  header : ∀ x ∈ (forwardEach publish l).sent, x.1.Header publish x.2
  own : ∀ x ∈ (forwardEach publish l).sent, x.1.recipients.count x.1.recipient = 1
  recipients : (forwardEach publish l).recipients =
    (forwardEach publish l).sent.flatMap fun x => x.1.recipients
  all : (l.map fun x => (x.1.clientId, x.1.forwarded publish)).Perm
    ((forwardEach publish l).sent.map (fun x => (x.1.clientId, x.2)) ++
      (forwardEach publish l).dropped.map fun x => (x.1, x.2.1))

section

variable (publish : Publish) (l : List (SubRelation × Option Bool))

theorem recipients_forwardEach : (forwardEach publish l).recipients =
    (forwardEach publish l).sent.flatMap fun x => x.1.recipients := by
  induction l with
  | nil => rfl
  | cons x l ih =>
    obtain ⟨e, _ | _ | _⟩ := x
    · exact ih
    · exact ih
    · exact congrArg (e.recipients ++ ·) ih

theorem perm_forwardEach : (l.map fun x => (x.1.clientId, x.1.forwarded publish)).Perm
    ((forwardEach publish l).sent.map (fun x => (x.1.clientId, x.2)) ++
      (forwardEach publish l).dropped.map fun x => (x.1, x.2.1)) := by
  induction l with
  | nil => exact .nil
  | cons x l ih =>
    obtain ⟨e, _ | _ | _⟩ := x
    · exact (ih.cons _).trans List.perm_middle.symm
    · exact (ih.cons _).trans List.perm_middle.symm
    · exact ih.cons _

/-- All copies are right exactly if, for every relation whose client can be reached, the identifiers fit
the message and the client is a member of the share group. -/
theorem rightCopies_iff : RightCopies publish l ↔
    ∀ x ∈ l, x.2 = some true → x.1.Identifiable publish ∧ x.1.Member := by
  have hsent (x : SubRelation × Option Bool) (hx : x ∈ l) (hopen : x.2 = some true) :
      (x.1, x.1.forwarded publish) ∈ (forwardEach publish l).sent := by
    rw [sent_forwardEach]
    exact List.mem_map.2 ⟨x, List.mem_filter.2 ⟨hx, by simpa using hopen⟩, rfl⟩
  constructor
  · intro h x hx hopen
    exact ⟨(x.1.header_forwarded_iff publish).1 (h.header _ (hsent x hx hopen)),
      x.1.count_recipients_iff.1 (h.own _ (hsent x hx hopen))⟩
  · intro h
    have hright (y : SubRelation × Publish) (hy : y ∈ (forwardEach publish l).sent) :
        y.2 = y.1.forwarded publish ∧ y.1.Identifiable publish ∧ y.1.Member := by
      rw [sent_forwardEach] at hy
      obtain ⟨x, hx, rfl⟩ := List.mem_map.1 hy
      obtain ⟨hmem, hopen⟩ := List.mem_filter.1 hx
      exact ⟨rfl, h x hmem (by simpa using hopen)⟩
    refine ⟨fun y hy => ?_, fun y hy => ?_, recipients_forwardEach publish l, perm_forwardEach publish l⟩
    · rw [(hright y hy).1]
      exact (y.1.header_forwarded_iff publish).2 (hright y hy).2.1
    · exact y.1.count_recipients_iff.2 (hright y hy).2.2

end

/-- Without properties the identifier of a subscription is lost; with them a subscription without
identifier gets the one of the publisher. -/
theorem wrong_identifiers :
    let plain : Publish :=
      { dup := false, retain := false, qos := .atMostOnce, topic := "a", packetId := none, payload := [],
        properties := none }
    let marked : Publish := { plain with properties := some { subscriptionIds := [⟨7, by decide⟩] } }
    let identified : SubRelation := ⟨"a", "c", default, some [⟨1, by decide⟩], none⟩
    let anonymous : SubRelation := ⟨"a", "c", default, none, none⟩
    subscriptionIds (identified.forwarded plain) = [] ∧
      subscriptionIds (anonymous.forwarded marked) = [⟨7, by decide⟩] ∧
      ¬ RightCopies plain [(identified, some true)] ∧ ¬ RightCopies marked [(anonymous, some true)] := by
  intro plain marked identified anonymous
  refine ⟨rfl, rfl, fun h => ?_, fun h => ?_⟩
  all_goals exact nomatch (h.header _ (List.mem_singleton.2 rfl)).subscriptionIds

end FerroMq
