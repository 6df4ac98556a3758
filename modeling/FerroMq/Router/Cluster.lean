import FerroMq.Router.Default

/-!
# The replicated router

`ClusterRouter` of the raft plugin: `apply` handles one committed message.  Locks are tested with the clock of
the node that applies the message, so two nodes agree exactly if every such test comes out the same on both
(`replicas_agree`).
-/

namespace FerroMq

open Lib Option

structure ClientStatus where
  id : Id
  online : Bool
  handshaking : Bool
  handshakDuration : TimestampMillis
  deriving DecidableEq

/-- The clock of a node while it applies one message: what it reads when a lock is tested, and what it
reads for a new entry. -/
structure Clock where
  test : TimestampMillis
  record : TimestampMillis
  deriving DecidableEq

abbrev Clock.NonDecreasing (clocks : List Clock) : Prop :=
  (clocks.flatMap fun now => [now.test, now.record]).Pairwise (· ≤ ·)

namespace ClientStatus

def new (now : Clock) (id : Id) (online handshaking : Bool) : ClientStatus :=
  { id, online, handshaking, handshakDuration := now.record }

def isHandshaking (self : ClientStatus) (tryLockTimeout : TimestampMillis) (now : Clock) : Bool :=
  self.handshaking && now.test < self.handshakDuration + tryLockTimeout

def view (self : ClientStatus) : Id × Bool × Bool := (self.id, self.online, self.handshaking)

end ClientStatus

inductive Message
  | handshakeTryLock (id : Id)
  | connected (id : Id)
  | disconnected (id : Id)
  | sessionTerminated (id : Id)
  | add (topicFilter : TopicFilter) (id : Id) (opts : SubscriptionOptions)
  | remove (topicFilter : TopicFilter) (id : Id)
  | getClientNodeId (clientId : ClientId)
  | ping
  deriving DecidableEq

inductive MessageReply
  | error (msg : String)
  | handshakeTryLock (prevId : Option Id)
  | ping
  deriving DecidableEq

/-- What `apply` returns, before it is serialised. -/
inductive Reply
  | empty
  | message (reply : MessageReply)
  | clientNodeId (nodeId : Option NodeId)
  deriving DecidableEq

structure ClusterRouter where
  inner : DefaultRouter := {}
  clientStates : Map ClientId ClientStatus := ∅

/-! ## The entry of a client -/

namespace ClientStatus

variable (tryLockTimeout : TimestampMillis) (now : Clock)

def tryLock (id : Id) : Option ClientStatus → Bool × ClientStatus
  | some status =>
    if status.isHandshaking tryLockTimeout now then (false, status)
    else (true, new now id false true)
  | none => (true, new now id false true)

def connected (id : Id) : Option ClientStatus → Bool × ClientStatus
  | some status =>
    if status.id ≠ id ∧ id.createTime < status.id.createTime then (false, status)
    else (true, { status with id, online := true, handshaking := false })
  | none => (true, new now id true false)

def disconnected (id : Id) (status : ClientStatus) : ClientStatus :=
  if status.id ≠ id then status else { status with online := false }

end ClientStatus

namespace ClusterRouter

/-! ## Applying messages -/

def clientNodeId (self : ClusterRouter) (clientId : ClientId) : Option NodeId :=
  (self.clientStates.lookup clientId).map fun entry => entry.id.nodeId

def apply (tryLockTimeout : TimestampMillis) (now : Clock) (self : ClusterRouter) :
    Message → Except TopicError Reply × ClusterRouter
  | .handshakeTryLock id =>
    let prev := self.clientStates.lookup id.clientId
    let (tryLockOk, status) := ClientStatus.tryLock tryLockTimeout now id prev
    (.ok (.message (if tryLockOk then .handshakeTryLock (prev.map (·.id))
        else .error "Handshake try lock failed")),
      { self with clientStates := self.clientStates.insert id.clientId status })
  | .connected id =>
    let (ok, status) := ClientStatus.connected now id (self.clientStates.lookup id.clientId)
    (.ok (if ok then .empty else .message (.error "id not the same")),
      { self with clientStates := self.clientStates.insert id.clientId status })
  | .disconnected id =>
    match self.clientStates.lookup id.clientId with
    | some status =>
      (.ok .empty,
        { self with
          clientStates := self.clientStates.insert id.clientId (status.disconnected id) })
    | none => (.ok .empty, self)
  | .sessionTerminated id =>
    match self.clientStates.lookup id.clientId with
    | some status =>
      (.ok .empty,
        if status.id ≠ id then self
        else { self with clientStates := self.clientStates.erase id.clientId })
    | none => (.ok .empty, self)
  | .add topicFilter id opts =>
    ((self.inner.add topicFilter id opts).1.map fun _ => .empty,
      { self with inner := (self.inner.add topicFilter id opts).2 })
  | .remove topicFilter id =>
    ((self.inner.remove topicFilter id).1.map fun _ => .empty,
      { self with inner := (self.inner.remove topicFilter id).2 })
  | .getClientNodeId clientId => (.ok (.clientNodeId (self.clientNodeId clientId)), self)
  | .ping => (.ok (.message .ping), self)

def run (tryLockTimeout : TimestampMillis) (self : ClusterRouter) :
    List (Message × Clock) → List (Except TopicError Reply) × ClusterRouter
  | [] => ([], self)
  | (msg, now) :: log =>
    let (reply, self) := self.apply tryLockTimeout now msg
    let (replies, self) := self.run tryLockTimeout log
    (reply :: replies, self)

end ClusterRouter

/-! ## What a message does -/

namespace Message

def client : Message → Option ClientId
  | handshakeTryLock id | connected id | disconnected id | sessionTerminated id => some id.clientId
  | _ => none

def onEntry (tryLockTimeout : TimestampMillis) (now : Clock) :
    Message → Option ClientStatus → Option ClientStatus
  | handshakeTryLock id, entry => some (ClientStatus.tryLock tryLockTimeout now id entry).2
  | connected id, entry => some (ClientStatus.connected now id entry).2
  | disconnected id, entry => entry.map (·.disconnected id)
  | sessionTerminated id, entry => entry.filter (·.id ≠ id)
  | _, entry => entry

def refused (tryLockTimeout : TimestampMillis) (now : Clock) :
    Message → Option ClientStatus → Bool
  | handshakeTryLock _, entry => entry.any (·.isHandshaking tryLockTimeout now)
  | _, _ => false

def call : Message → Option DefaultRouter.Call
  | add topicFilter id opts => some (.add topicFilter id opts)
  | remove topicFilter id => some (.remove topicFilter id)
  | _ => none

end Message

namespace ClusterRouter

variable (tryLockTimeout : TimestampMillis) (now : Clock) (r : ClusterRouter)

theorem lookup_apply (msg : Message) (c : ClientId) :
    (r.apply tryLockTimeout now msg).2.clientStates.lookup c =
      if msg.client = some c then msg.onEntry tryLockTimeout now (r.clientStates.lookup c)
      else r.clientStates.lookup c := by
  cases msg with
  | handshakeTryLock id | connected id =>
    simp only [apply, Message.client, Message.onEntry, Map.lookup_insert', some_inj, eq_comm]
    split_ifs with h
    · rw [h]
    · rfl
  | disconnected id =>
    simp only [apply, Message.client, Message.onEntry, some_inj]
    rcases hentry : r.clientStates.lookup id.clientId with _ | status
    · split_ifs with h
      · rw [← h, hentry]
        rfl
      · rfl
    · simp only [Map.lookup_insert', eq_comm]
      split_ifs with h
      · rw [h, hentry]
        rfl
      · rfl
  | sessionTerminated id =>
    simp only [apply, Message.client, Message.onEntry, some_inj]
    rcases hentry : r.clientStates.lookup id.clientId with _ | status
    · split_ifs with h
      · rw [← h, hentry]
        rfl
      · rfl
    · by_cases hid : status.id = id
      · simp only [hid, ne_eq, not_true_eq_false, if_false, Map.lookup_erase', eq_comm]
        split_ifs with h
        · rw [h, hentry]
          simp [Option.filter, hid]
        · rfl
      · simp only [hid, ne_eq, not_false_eq_true, if_true]
        split_ifs with h
        · rw [← h, hentry]
          simp [Option.filter, hid]
        · rfl
  | _ => rfl

theorem inner_apply (msg : Message) :
    (r.apply tryLockTimeout now msg).2.inner = msg.call.elim r.inner r.inner.call := by
  cases msg with
  | disconnected id =>
    unfold apply
    dsimp only
    split <;> rfl
  | sessionTerminated id =>
    unfold apply
    dsimp only
    split
    · split_ifs <;> rfl
    · rfl
  | _ => rfl

theorem consistent_run (log : List (Message × Clock)) (h : r.inner.Consistent) :
    (r.run tryLockTimeout log).2.inner.Consistent := by
  induction log generalizing r with
  | nil => exact h
  | cons e log ih =>
    refine ih (r.apply tryLockTimeout e.2 e.1).2 ?_
    rw [inner_apply]
    cases e.1.call with
    | none => exact h
    | some x => exact h.call x

/-! ## Two replicas -/

/-- Two nodes hold the same, up to the times that they recorded. -/
def Same (a b : ClusterRouter) : Prop :=
  a.inner = b.inner ∧
    ∀ c, (a.clientStates.lookup c).map ClientStatus.view =
      (b.clientStates.lookup c).map ClientStatus.view

def refuses (msg : Message) : Bool :=
  msg.refused tryLockTimeout now (msg.client.bind fun c => r.clientStates.lookup c)

def applyBoth (s : ClusterRouter × ClusterRouter) (e : Message × Clock × Clock) :
    ClusterRouter × ClusterRouter :=
  ((s.1.apply tryLockTimeout e.2.1 e.1).2, (s.2.apply tryLockTimeout e.2.2 e.1).2)

/-- Each node tests the lock with its own clock, with the same result. -/
def TestsAgree (s : ClusterRouter × ClusterRouter) (e : Message × Clock × Clock) : Prop :=
  s.1.refuses tryLockTimeout e.2.1 e.1 = s.2.refuses tryLockTimeout e.2.2 e.1

variable {tryLockTimeout now r}

theorem view_onEntry {now' : Clock} {x y : Option ClientStatus} {msg : Message}
    (h : x.map ClientStatus.view = y.map ClientStatus.view)
    (htest : msg.refused tryLockTimeout now x = msg.refused tryLockTimeout now' y) :
    (msg.onEntry tryLockTimeout now x).map ClientStatus.view =
      (msg.onEntry tryLockTimeout now' y).map ClientStatus.view := by
  rcases x with _ | x <;> rcases y with _ | y
  · cases msg <;> rfl
  · cases h
  · cases h
  · obtain ⟨hid, honline, hlock⟩ : x.id = y.id ∧ x.online = y.online ∧
        x.handshaking = y.handshaking := by
      simpa [ClientStatus.view] using h
    cases msg with
    | handshakeTryLock id =>
      simp only [Message.refused, any_some] at htest
      simp only [Message.onEntry, ClientStatus.tryLock, htest]
      split_ifs
      · exact h
      · rfl
    | connected id =>
      simp only [Message.onEntry, ClientStatus.connected, hid]
      split_ifs
      · exact h
      · rfl
    | disconnected id =>
      simp only [Message.onEntry, map_some, ClientStatus.disconnected, hid]
      split_ifs
      · exact h
      · simp [ClientStatus.view, hlock]
    | sessionTerminated id =>
      simp only [Message.onEntry, filter_some, hid]
      split_ifs
      · exact h
      · rfl
    | _ => exact h

theorem Same.apply {now' : Clock} {a b : ClusterRouter} (h : Same a b) {msg : Message}
    (htest : a.refuses tryLockTimeout now msg = b.refuses tryLockTimeout now' msg) :
    Same (a.apply tryLockTimeout now msg).2 (b.apply tryLockTimeout now' msg).2 := by
  refine ⟨by rw [inner_apply, inner_apply, h.1], fun c => ?_⟩
  rw [lookup_apply, lookup_apply]
  split_ifs with hc
  · refine view_onEntry (h.2 c) ?_
    simpa [refuses, hc] using htest
  · exact h.2 c

theorem tryLock_fst (id : Id) (x : Option ClientStatus) :
    (ClientStatus.tryLock tryLockTimeout now id x).1 =
      !(Message.handshakeTryLock id).refused tryLockTimeout now x := by
  rcases x with _ | x
  · rfl
  · rw [ClientStatus.tryLock, Message.refused, any_some]
    split_ifs with h
    · rw [h]
      rfl
    · simp [h]

theorem Same.lookup_id {a b : ClusterRouter} (h : Same a b) (c : ClientId) :
    (a.clientStates.lookup c).map (·.id) = (b.clientStates.lookup c).map (·.id) := by
  have := congrArg (Option.map Prod.fst) (h.2 c)
  rwa [map_map, map_map] at this

theorem Same.reply_eq_iff {now' : Clock} {a b : ClusterRouter} (h : Same a b) {msg : Message} :
    (a.apply tryLockTimeout now msg).1 = (b.apply tryLockTimeout now' msg).1 ↔
      a.refuses tryLockTimeout now msg = b.refuses tryLockTimeout now' msg := by
  cases msg with
  | handshakeTryLock id =>
    simp only [ClusterRouter.apply, tryLock_fst, h.lookup_id, refuses, Message.client,
      bind_some]
    cases (Message.handshakeTryLock id).refused tryLockTimeout now
        (a.clientStates.lookup id.clientId) <;>
      cases (Message.handshakeTryLock id).refused tryLockTimeout now'
        (b.clientStates.lookup id.clientId) <;> simp
  | connected id =>
    refine iff_of_true ?_ rfl
    have hid := h.lookup_id id.clientId
    rcases ha : a.clientStates.lookup id.clientId with _ | x <;>
      rcases hb : b.clientStates.lookup id.clientId with _ | y <;>
      rw [ha, hb] at hid
    · simp [ClusterRouter.apply, ha, hb, ClientStatus.connected]
    · cases hid
    · cases hid
    · have hid : x.id = y.id := some_inj.1 hid
      simp only [ClusterRouter.apply, ha, hb, ClientStatus.connected, hid]
      split_ifs <;> rfl
  | disconnected id | sessionTerminated id =>
    refine iff_of_true ?_ rfl
    rcases ha : a.clientStates.lookup id.clientId with _ | x <;>
      rcases hb : b.clientStates.lookup id.clientId with _ | y <;>
      simp only [ClusterRouter.apply, ha, hb]
  | add f id opts | remove f id =>
    refine iff_of_true ?_ rfl
    rw [ClusterRouter.apply, ClusterRouter.apply, h.1]
  | getClientNodeId c =>
    refine iff_of_true ?_ rfl
    have hnode := congrArg (Option.map Id.nodeId) (h.lookup_id c)
    rw [map_map, map_map] at hnode
    exact congrArg (fun n => Except.ok (Reply.clientNodeId n)) hnode
  | ping => exact iff_of_true rfl rfl

theorem Same.run_iff {a b : ClusterRouter} (h : Same a b) (log : List (Message × Clock × Clock)) :
    ((a.run tryLockTimeout (log.map fun e => (e.1, e.2.1))).1 =
        (b.run tryLockTimeout (log.map fun e => (e.1, e.2.2))).1 ∧
      Same (a.run tryLockTimeout (log.map fun e => (e.1, e.2.1))).2
        (b.run tryLockTimeout (log.map fun e => (e.1, e.2.2))).2) ↔
      Along (applyBoth tryLockTimeout) (TestsAgree tryLockTimeout) (a, b) log := by
  induction log generalizing a b with
  | nil => exact iff_of_true ⟨rfl, h⟩ trivial
  | cons e log ih =>
    obtain ⟨msg, now, now'⟩ := e
    simp only [List.map_cons, run, List.cons.injEq, and_assoc, h.reply_eq_iff]
    exact and_congr_right fun htest => ih (h.apply htest)

/-- Two nodes that apply one log from one state return the same replies and end with the same state
if and only if every test of a lock has the same result on both. -/
theorem replicas_agree (tryLockTimeout : TimestampMillis) (s : ClusterRouter)
    (log : List (Message × Clock × Clock)) :
    ((s.run tryLockTimeout (log.map fun e => (e.1, e.2.1))).1 =
        (s.run tryLockTimeout (log.map fun e => (e.1, e.2.2))).1 ∧
      Same (s.run tryLockTimeout (log.map fun e => (e.1, e.2.1))).2
        (s.run tryLockTimeout (log.map fun e => (e.1, e.2.2))).2) ↔
      Along (applyBoth tryLockTimeout) (TestsAgree tryLockTimeout) (s, s) log :=
  Same.run_iff ⟨rfl, fun _ => rfl⟩ log

/-- The lock of one session has timed out for the node that is late with the second message, and not
for the other one. -/
theorem replicas_differ :
    let x := Id.ofClient 1 "c" 0
    let y := Id.ofClient 2 "c" 400
    let log : List (Message × Clock × Clock) :=
      [(.handshakeTryLock x, ⟨0, 0⟩, ⟨0, 0⟩), (.handshakeTryLock y, ⟨500, 500⟩, ⟨1500, 1500⟩)]
    let a := run 1000 {} (log.map fun e => (e.1, e.2.1))
    let b := run 1000 {} (log.map fun e => (e.1, e.2.2))
    Clock.NonDecreasing (log.map fun e => e.2.1) ∧ Clock.NonDecreasing (log.map fun e => e.2.2) ∧
      a.1 ≠ b.1 ∧ ¬ Same a.2 b.2 := by
  intro x y log a b
  refine ⟨by decide, by decide, by decide +kernel, fun h => ?_⟩
  have hview := h.2 "c"
  revert hview
  decide +kernel

end ClusterRouter

end FerroMq
