import FerroMq.Broadcast.Copies
import FerroMq.Retain.Storage

/-!
# Marking stored messages as forwarded

A node forwards a message to its own subscribers and sends the relations of every other node to that node.  The
recipients are worked out beforehand and recorded if all copies of a node have been queued, so a node where some
could not be queued is not recorded at all (`marked_iff`).
-/

namespace FerroMq.ClusterShared

open Lib Codec

/-- The relations of a node, each with what the node finds when it comes to it: if the client has a session, and if
the channel of the session is open. -/
abbrev NodeRelations := List (SubRelation × Option Bool)

def subRelationsToClientIds (relations : List SubRelation) : ForwardedRecipients :=
  relations.flatMap SubRelation.recipients

/-- `forwards_to` of a node: the outcome, and the acknowledgement to another node. -/
def forwardsTo (thisNode fromNode : NodeId) (publish : Publish) (relations : NodeRelations) (msgId : Option MsgId) :
    Forwarding × Option (MsgId × ForwardedRecipients) :=
  let subscribers := if fromNode = thisNode then none
    else msgId.map fun msgId => (msgId, subRelationsToClientIds (relations.map Prod.fst))
  let res := forwardEach publish relations
  (res, if res.dropped.isEmpty then subscribers else none)

/-- `forward_to_subscriptions`, for the relations of one node: the outcome there, and what is marked at the publishing
node once the acknowledgement has arrived.  Nothing is sent to a node without a client. -/
def forwardToNode (thisNode : NodeId) (grpcClient : NodeId → Bool) (publish : Publish) (msgId : Option MsgId)
    (e : NodeId × NodeRelations) : Forwarding × Option (MsgId × ForwardedRecipients) :=
  if e.1 = thisNode then
    let subscribers := msgId.map fun msgId => (msgId, subRelationsToClientIds (e.2.map Prod.fst))
    let res := (forwardsTo thisNode thisNode publish e.2 msgId).1
    (res, if res.dropped.isEmpty then subscribers else none)
  else if grpcClient e.1 then forwardsTo e.1 thisNode publish e.2 msgId
  else (⟨[], [], []⟩, none)

variable (thisNode : NodeId) (grpcClient : NodeId → Bool) (publish : Publish) (msgId : MsgId)

def marked (relationsMap : List (NodeId × NodeRelations)) : Multiset (ClientId × Option (TopicFilter × SharedGroup)) :=
  (relationsMap.map fun e =>
    (((forwardToNode thisNode grpcClient publish (some msgId) e).2.map Prod.snd).getD [] : Multiset _)).sum

/-- The recipients of all relations whose copy was queued. -/
def queued (relationsMap : List (NodeId × NodeRelations)) : Multiset (ClientId × Option (TopicFilter × SharedGroup)) :=
  (relationsMap.map fun e => ((forwardToNode thisNode grpcClient publish (some msgId) e).1.sent.flatMap
    fun x => x.1.recipients : Multiset _)).sum

/-- A message is sent to the node. -/
def Reached (n : NodeId) : Prop := n = thisNode ∨ grpcClient n = true

section

variable {thisNode grpcClient publish msgId}

theorem dropped_forwardEach (l : NodeRelations) :
    (forwardEach publish l).dropped.isEmpty = true ↔ ∀ x ∈ l, x.2 = some true := by
  induction l with
  | nil => simp [forwardEach]
  | cons x l ih =>
    obtain ⟨e, _ | _ | _⟩ := x
    · simp [forwardEach]
    · simp [forwardEach]
    · simpa [forwardEach] using ih

theorem forwardToNode_eq {e : NodeId × NodeRelations} (h : Reached thisNode grpcClient e.1) :
    forwardToNode thisNode grpcClient publish (some msgId) e =
      (forwardEach publish e.2, if (forwardEach publish e.2).dropped.isEmpty then
        some (msgId, subRelationsToClientIds (e.2.map Prod.fst)) else none) := by
  rw [forwardToNode]
  by_cases hthis : e.1 = thisNode
  · rw [if_pos hthis]
    rfl
  · rw [if_neg hthis, if_pos (h.resolve_left hthis), forwardsTo, if_neg (Ne.symm hthis)]
    rfl

def lost (thisNode : NodeId) (grpcClient : NodeId → Bool) (e : NodeId × NodeRelations) :
    Multiset (ClientId × Option (TopicFilter × SharedGroup)) :=
  if (e.1 = thisNode ∨ grpcClient e.1 = true) ∧ ∃ x ∈ e.2, x.2 ≠ some true then
    ((e.2.filter fun x => x.2 = some true).flatMap fun x => x.1.recipients : List _)
  else 0

theorem marked_add_lost (relationsMap : List (NodeId × NodeRelations)) :
    marked thisNode grpcClient publish msgId relationsMap + (relationsMap.map (lost thisNode grpcClient)).sum =
      queued thisNode grpcClient publish msgId relationsMap := by
  rw [marked, queued, ← List.sum_map_add]
  refine congrArg List.sum (List.map_congr_left fun e _ => ?_)
  have hsent : (forwardEach publish e.2).sent.flatMap (fun x => x.1.recipients) =
      (e.2.filter fun x => x.2 = some true).flatMap fun x => x.1.recipients := by
    rw [sent_forwardEach, List.flatMap_map]
  by_cases hreached : Reached thisNode grpcClient e.1
  · rw [forwardToNode_eq hreached, lost]
    by_cases hall : ∀ x ∈ e.2, x.2 = some true
    · rw [if_pos ((dropped_forwardEach e.2).2 hall), if_neg fun h => ?_, add_zero, hsent,
        List.filter_eq_self.2 (by simpa using hall), subRelationsToClientIds, List.flatMap_map]
      · rfl
      · obtain ⟨-, x, hx, hne⟩ := h
        exact hne (hall x hx)
    · rw [if_neg fun h => hall ((dropped_forwardEach e.2).1 h), if_pos ⟨hreached, by simpa using hall⟩, hsent]
      exact zero_add _
  · have hnot := not_or.1 hreached
    rw [forwardToNode, if_neg hnot.1, if_neg hnot.2, lost, if_neg fun h => hreached h.1]
    rfl

end

/-- The recipients that are recorded are those of the relations whose copy was queued, exactly if at every node that is
reached all copies are queued or none. -/
theorem marked_iff (relationsMap : List (NodeId × NodeRelations)) :
    marked thisNode grpcClient publish msgId relationsMap = queued thisNode grpcClient publish msgId relationsMap ↔
      ∀ e ∈ relationsMap, Reached thisNode grpcClient e.1 → (∃ x ∈ e.2, x.2 ≠ some true) →
        ∀ x ∈ e.2, x.2 = some true → x.1.recipients = [] := by
  have hlost (e : NodeId × NodeRelations) : lost thisNode grpcClient e = 0 ↔
      (Reached thisNode grpcClient e.1 → (∃ x ∈ e.2, x.2 ≠ some true) →
        ∀ x ∈ e.2, x.2 = some true → x.1.recipients = []) := by
    rw [lost]
    split_ifs with h
    · rw [Multiset.coe_eq_zero, List.flatMap_eq_nil_iff]
      simp only [List.mem_filter, decide_eq_true_eq, and_imp]
      exact ⟨fun hnil _ _ => hnil, fun hnil => hnil h.1 h.2⟩
    · exact iff_of_true rfl fun hreached hx => absurd ⟨hreached, hx⟩ h
  rw [← marked_add_lost, left_eq_add, List.sum_eq_zero_iff]
  simp only [List.forall_mem_map, hlost]

def directTo (clientId : ClientId) : SubRelation := ⟨"a", clientId, default, none, none⟩

/-- One of two subscribers has no session any more: the other one gets the message and is not recorded. -/
theorem delivered_unmarked :
    let publish : Publish := { dup := false, retain := false, qos := .atMostOnce, topic := "a", packetId := none,
                               payload := [], properties := none }
    let relationsMap : List (NodeId × NodeRelations) := [(1, [(directTo "x", some true), (directTo "y", none)])]
    marked 1 (fun _ => true) publish 7 relationsMap = 0 ∧
      queued 1 (fun _ => true) publish 7 relationsMap = {("x", none)} :=
  ⟨rfl, rfl⟩

end FerroMq.ClusterShared
