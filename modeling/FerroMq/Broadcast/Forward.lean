import FerroMq.Router.FanOut
import FerroMq.Session.Subscribe

/-!
# Forwarding a message in a broadcast cluster

`forward_to_subscriptions` sends a message in three phases: to the own subscribers in no share group; by
`Message::Forwards` to those of the other nodes, which answer with their subscribers in share groups; and to one
subscriber of every share group.
-/

namespace FerroMq

open Lib Codec

/-! ## One node -/

inductive DropReason
  | disconnected
  | closed
  deriving DecidableEq

namespace SubRelation

def forwarded (e : SubRelation) (publish : Publish) : Publish :=
  { publish with
    dup := false
    retain := match e.opts.retainAsPublished with
      | some retainAsPublished => if retainAsPublished then publish.retain else false
      | none => false
    qos := publish.qos.lessValue e.opts.qos
    packetId := none
    properties := match e.subIds with
      | some subIds => publish.properties.map fun p => { p with subscriptionIds := subIds }
      | none => publish.properties }

def recipients (e : SubRelation) : ForwardedRecipients :=
  match e.group with
  | some (group, _, cids) => cids.map fun cid =>
      (cid, if cid = e.clientId then some (e.topicFilter, group) else none)
  | none => [(e.clientId, none)]

end SubRelation

structure Forwarding where
  sent : List (SubRelation × Publish)
  recipients : ForwardedRecipients
  dropped : List (ClientId × Publish × DropReason)

/-- `DefaultShared::forwards_to`.  For every client, `channel` says if it has a session, and if the
channel of the session is open. -/
def forwardsTo (channel : ClientId → Option Bool) (publish : Publish) : List SubRelation → Forwarding
  | [] => ⟨[], [], []⟩
  | e :: es =>
    let rest := forwardsTo channel publish es
    let p := e.forwarded publish
    match channel e.clientId with
    | none => { rest with dropped := (e.clientId, p, .disconnected) :: rest.dropped }
    | some false => { rest with dropped := (e.clientId, p, .closed) :: rest.dropped }
    | some true =>
      { rest with sent := (e, p) :: rest.sent, recipients := e.recipients ++ rest.recipients }

structure BroadcastServer (σ : Type) where
  id : NodeId
  router : DefaultRouter
  env : Surroundings σ
  state : σ
  channel : ClientId → Option Bool
  /-- The order in which the map of the relations is walked. -/
  relationsOrder : Walk NodeId (List SubRelation)
  consistent : router.Consistent
  /-- The subscriptions are those of the node's own sessions. -/
  own : ∀ f c x, router.subscription f c = some x → x.1.nodeId = id

def flatRelations (w : Walk NodeId (List SubRelation)) (m : SubRelationsMap) :
    List (NodeId × SubRelation) :=
  (w.list m).flatMap fun e => e.2.map fun rel => (e.1, rel)

def directRelations (l : List (NodeId × SubRelation)) : List SubRelation :=
  (l.filter fun x => x.2.group.isNone).map Prod.snd

def sharedRelations (l : List (NodeId × SubRelation)) : List (NodeId × SubRelation) :=
  l.filter fun x => x.2.group.isSome

/-- The reply to `Message::Forwards`.  The relations are those of a `SubRelationsMap`, in any order. -/
structure ForwardsReply where
  shared : List (NodeId × SubRelation)
  recipients : ForwardedRecipients

namespace BroadcastServer

variable {σ : Type} (node : BroadcastServer σ) (thisId : Id) (publish : Publish)

/-- An error of `matches` counts as no relation. -/
def «matches» (topicName : String) : Except MatchError (SubRelationsMap × σ) :=
  match node.router.matches node.env thisId topicName node.state with
  | .error (.topic _) => .ok (∅, node.state)
  | r => r

/-- `forwards`, with `forwards_and_get_shareds`, for a message without target: the reply, and what is
sent.  After a failure there are no shared relations in the reply. -/
def forwards : Option ForwardsReply × List (SubRelation × Publish) :=
  match node.matches thisId publish.topic with
  | .error _ => (none, [])
  | .ok (relationsMap, _) =>
    let l := flatRelations node.relationsOrder relationsMap
    let forwarding := forwardsTo node.channel publish (directRelations l)
    if forwarding.dropped = [] then
      (some ⟨sharedRelations l, forwarding.recipients⟩, forwarding.sent)
    else (some ⟨[], forwarding.recipients⟩, forwarding.sent)

end BroadcastServer

/-! ## The cluster -/

abbrev SharedSubGroups := Map (TopicFilter × SharedGroup) (List Candidate)

def sharedCandidate (x : NodeId × SubRelation) :
    Option ((TopicFilter × SharedGroup) × Candidate) :=
  x.2.group.map fun g =>
    ((x.2.topicFilter, g.1), ⟨x.1, x.2.clientId, x.2.opts, x.2.subIds, some g.2.1⟩)

def sharedSubGroups (l : List (NodeId × SubRelation)) : SharedSubGroups :=
  Map.pushAll (l.filterMap sharedCandidate)

structure Chosen where
  group : SharedGroup
  nodeId : NodeId
  relation : SubRelation
  deriving DecidableEq

structure Outcome where
  /-- What is sent for the relations outside share groups, with the node. -/
  direct : List (NodeId × SubRelation × Publish)
  chosen : List Chosen
  /-- What is sent to the chosen members. -/
  shared : List (NodeId × SubRelation × Publish)
  result : Except (ForwardedRecipients × List (ClientId × Publish × DropReason)) ForwardedRecipients

namespace BroadcastServer

variable {σ : Type} (own : BroadcastServer σ) (others : List (BroadcastServer σ))
  (groupsOrder : Walk (TopicFilter × SharedGroup) (List Candidate)) (thisId : Id) (publish : Publish)

def choose (topicName : String) (acc : List Chosen × σ)
    (e : Σ _ : TopicFilter × SharedGroup, List Candidate) : Except MatchError (List Chosen × σ) :=
  match own.env.choice acc.2 e.1.2 thisId topicName e.2 with
  | (some (idx, _), s) =>
    match e.2[idx]? with
    | some x => .ok (acc.1 ++ [⟨e.1.2, x.nodeId, ⟨e.1.1, x.clientId, x.opts, x.subIds, none⟩⟩], s)
    | none => .error .panicked
  | (none, s) => .ok (acc.1, s)

def forwardsChosen (node : BroadcastServer σ) (chosen : List Chosen) :
    List (NodeId × SubRelation × Publish) :=
  (forwardsTo node.channel publish
    ((chosen.filter fun x => x.nodeId = node.id).map Chosen.relation)).sent.map (Prod.mk node.id)

def forwardToSubscriptions : Except MatchError Outcome := do
  let (relationsMap, s) ← own.matches thisId publish.topic
  let l := flatRelations own.relationsOrder relationsMap
  let forwardeds := l.flatMap fun x => x.2.recipients
  let local' := forwardsTo own.channel publish (directRelations l)
  if local'.dropped ≠ [] then
    return ⟨local'.sent.map (Prod.mk own.id), [], [], .error (local'.recipients, local'.dropped)⟩
  let replies := others.map fun node => (node.id, node.forwards thisId publish)
  let candidates := sharedRelations l ++ replies.flatMap fun r => (r.2.1.map ForwardsReply.shared).getD []
  let (chosen, _) ← (groupsOrder.list (sharedSubGroups candidates)).foldlM
    (own.choose thisId publish.topic) ([], s)
  return {
    direct := local'.sent.map (Prod.mk own.id) ++ replies.flatMap fun r => r.2.2.map (Prod.mk r.1)
    chosen
    shared := (own :: others).flatMap fun node => node.forwardsChosen publish chosen
    result := .ok (forwardeds ++ replies.flatMap fun r => (r.2.1.map ForwardsReply.recipients).getD [])
  }

end BroadcastServer

end FerroMq
