import FerroMq.Lib.Deque
import FerroMq.Session.Inbound

/-!
# Messages of QoS 1 and 2 to the client

A message gets a packet id and is kept in the inflight window until it is acknowledged.  One that times out
leaves the window and goes through the session's own channel again, under the id it had, or as PUBREL if the
PUBREC was received.  `NeverRepeated` says what the client may rely on.
-/

namespace FerroMq

open Lib Codec

/-! ## The inflight window -/

inductive MomentStatus
  | unAck
  | unReceived
  | unComplete
  deriving DecidableEq

/-- A PUBLISH to the client.  The messages of a connection are numbered as they come in. -/
structure Delivery where
  message : ℕ
  publish : Publish

structure OutInflightMessage where
  delivery : Delivery
  status : MomentStatus
  updateTime : ℤ

namespace OutInflightMessage

def withStatus (self : OutInflightMessage) (status : MomentStatus) (now : ℤ) : OutInflightMessage :=
  { self with status, updateTime := now }

def timeout (self : OutInflightMessage) (interval now : ℤ) : Bool :=
  interval > 0 ∧ now - self.updateTime ≥ interval

end OutInflightMessage

structure OutInflight where
  cap : UInt64
  interval : ℤ
  next : UInt16
  queues : DequeMap PacketId OutInflightMessage

namespace OutInflight

def minInterval (retryInterval expiryInterval : ℤ) : ℤ :=
  if retryInterval = 0 then expiryInterval
  else if expiryInterval = 0 then retryInterval
  else min retryInterval expiryInterval

def new (cap : UInt64) (retryInterval expiryInterval : ℤ) : OutInflight where
  cap
  interval := minInterval retryInterval expiryInterval
  next := 1
  queues := .empty

def frontTimeout (self : OutInflight) (now : ℤ) : Bool :=
  if self.interval = 0 then false
  else
    match self.queues.entries with
    | (_, m) :: _ => m.timeout self.interval now
    | [] => false

def popFront (self : OutInflight) : Option (OutInflightMessage × OutInflight) :=
  self.queues.popFront.map fun (e, queues) => (e.2, { self with queues })

def popFrontTimeout (self : OutInflight) (now : ℤ) : Option (OutInflightMessage × OutInflight) :=
  if self.frontTimeout now then self.popFront else none

theorem popFrontTimeout_eq_some {self self' : OutInflight} {now : ℤ} {m : OutInflightMessage}
    (h : self.popFrontTimeout now = some (m, self')) :
    m.timeout self.interval now = true ∧ self'.interval = self.interval ∧
      ∃ k, self.queues.entries = (k, m) :: self'.queues.entries := by
  unfold popFrontTimeout at h
  split_ifs at h with htimeout
  obtain ⟨⟨⟨k, m'⟩, queues⟩, hpop, heq⟩ := Option.map_eq_some_iff.1 h
  obtain ⟨rfl, rfl⟩ := Prod.mk.inj heq
  have hentries := DequeMap.popFront_eq_some hpop
  refine ⟨?_, rfl, k, hentries⟩
  unfold frontTimeout at htimeout
  rw [hentries] at htimeout
  split_ifs at htimeout
  exact htimeout

def pushBack (self : OutInflight) (keepsPlace : Bool) (m : OutInflightMessage) : OutInflight :=
  match m.delivery.publish.packetId with
  | some packetId => { self with queues := self.queues.insert keepsPlace packetId m }
  | none => self

def remove (self : OutInflight) (packetId : PacketId) : OutInflight :=
  { self with queues := self.queues.remove packetId }

def updateStatus (self : OutInflight) (packetId : PacketId) (s : MomentStatus) (now : ℤ) :
    OutInflight :=
  { self with queues := self.queues.modify packetId fun m => m.withStatus s now }

/-- The difference wraps around if `send_rerelease` has filled the window beyond its capacity. -/
def hasCredit (self : OutInflight) : Bool :=
  self.cap - UInt64.ofNat self.queues.entries.length > 0

def nextIdLoop (self : OutInflight) : ℕ → Option PacketId × OutInflight
  | 0 => (none, self)
  | n + 1 =>
    let self' := { self with next := self.next + 1 }
    if h : self.next = 0 then nextIdLoop self' n
    else if ⟨self.next, h⟩ ∈ self.queues.keys then nextIdLoop self' n
    else (some ⟨self.next, h⟩, self')

def nextId (self : OutInflight) : Option PacketId × OutInflight := self.nextIdLoop 65535

theorem nextIdLoop_spec (self : OutInflight) (n : ℕ) :
    (self.nextIdLoop n).2.queues = self.queues ∧
      ∀ k ∈ (self.nextIdLoop n).1, k ∉ self.queues.keys := by
  induction n generalizing self with
  | zero => exact ⟨rfl, nofun⟩
  | succ n ih =>
    rw [nextIdLoop]
    split_ifs with hzero hused
    · exact ih { self with next := self.next + 1 }
    · exact ih { self with next := self.next + 1 }
    · refine ⟨rfl, fun k hk => ?_⟩
      rwa [← Option.mem_some_iff.1 hk]

end OutInflight

/-! ## The event loop -/

/-- What a session receives from itself and from the others. -/
inductive SessionMessage
  | forward (delivery : Delivery)
  | sendRerelease (m : OutInflightMessage)

/-- What is exchanged with the client. -/
inductive DeliveryEvent
  | publish (packetId : PacketId) (message : ℕ) (qos : QoS)
  | puback (packetId : PacketId)
  | pubrec (packetId : PacketId)
  | pubrel (packetId : PacketId)
  | pubcomp (packetId : PacketId)
  deriving DecidableEq

structure Outbound where
  inflight : OutInflight
  rx : List SessionMessage
  queue : List Delivery
  queueCap : ℕ
  /-- The number of messages for the client so far. -/
  arrived : ℕ
  running : Bool
  trace : List DeliveryEvent

namespace Outbound

def init (cap : UInt64) (retryInterval expiryInterval : ℤ) (queueCap : ℕ) : Outbound where
  inflight := .new cap retryInterval expiryInterval
  rx := []
  queue := []
  queueCap
  arrived := 0
  running := true
  trace := []

def forward (s : Outbound) (d : Delivery) : Outbound := { s with rx := s.rx ++ [.forward d] }

def arrive (s : Outbound) (publish : Publish) : Outbound :=
  { s.forward ⟨s.arrived, { publish with dup := false, packetId := none }⟩ with
    arrived := s.arrived + 1 }

def reforward (expired : OutInflightMessage → Bool) (s : Outbound) (m : OutInflightMessage) :
    Outbound :=
  match m.status with
  | .unAck | .unReceived =>
    s.forward { m.delivery with publish := { m.delivery.publish with dup := true } }
  | .unComplete => if expired m then s else { s with rx := s.rx ++ [.sendRerelease m] }

def timeoutLoop (now : ℤ) (expired : OutInflightMessage → Bool) : ℕ → Outbound → Outbound
  | 0, s => s
  | n + 1, s =>
    match s.inflight.popFrontTimeout now with
    | none => s
    | some (m, inflight) => timeoutLoop now expired n (reforward expired { s with inflight } m)

def timeouts (s : Outbound) (now : ℤ) (expired : OutInflightMessage → Bool) : Outbound :=
  timeoutLoop now expired s.inflight.queues.entries.length s

def enqueue (queueCap : ℕ) (queue : List Delivery) (d : Delivery) : List Delivery :=
  if queue.length < queueCap then queue ++ [d]
  else if d.publish.qos = .atMostOnce then queue
  else if queue.tail.length < queueCap then queue.tail ++ [d]
  else queue.tail

def sendRerelease (keepsPlace : Bool) (s : Outbound) (m : OutInflightMessage) (now : ℤ)
    (sent : Bool) : Outbound :=
  match m.delivery.publish.packetId with
  | none => { s with running := false }
  | some packetId =>
    let inflight := s.inflight.pushBack keepsPlace ⟨m.delivery, .unComplete, now⟩
    if sent then { s with inflight, trace := s.trace ++ [.pubrel packetId] }
    else { s with inflight, running := false }

def processMessage (keepsPlace : Bool) (s : Outbound) (now : ℤ) (sent : Bool) : Outbound :=
  match s.rx with
  | [] => s
  | .forward d :: rx => { s with rx, queue := enqueue s.queueCap s.queue d }
  | .sendRerelease m :: rx => sendRerelease keepsPlace { s with rx } m now sent

def momentStatus : QoS → Option MomentStatus
  | .atLeastOnce => some .unAck
  | .exactlyOnce => some .unReceived
  | .atMostOnce => none

def published (d : Delivery) : List DeliveryEvent :=
  match d.publish.qos, d.publish.packetId with
  | .atMostOnce, _ | _, none => []
  | qos, some packetId => [.publish packetId d.message qos]

/-- The second half of `deliver`.  `sent` says whether the PUBLISH can be sent. -/
def sendPublish (keepsPlace : Bool) (s : Outbound) (d : Delivery) (now : ℤ) (sent : Bool) :
    Outbound :=
  if sent then
    { s with
      trace := s.trace ++ published d
      inflight := match momentStatus d.publish.qos with
        | some status => s.inflight.pushBack keepsPlace ⟨d, status, now⟩
        | none => s.inflight }
  else { s with running := false }

def needsId (p : Publish) : Bool := p.qos ≠ .atMostOnce ∧ (p.dup = false ∨ p.packetId = none)

def deliver (keepsPlace : Bool) (s : Outbound) (now : ℤ) (expired sent : Bool) : Outbound :=
  match s.queue with
  | [] => s
  | d :: queue =>
    if expired then { s with queue }
    else if needsId d.publish then
      match s.inflight.nextId with
      | (none, inflight) => { s with queue, inflight, running := false }
      | (some packetId, inflight) =>
        sendPublish keepsPlace { s with queue, inflight }
          { d with publish := { d.publish with packetId := some packetId } } now sent
    else sendPublish keepsPlace { s with queue } d now sent

def received (s : Outbound) (packetId : PacketId) (now : ℤ) (sent : Bool) : Outbound :=
  let inflight := s.inflight.updateStatus packetId .unComplete now
  if sent then { s with inflight, trace := s.trace ++ [.pubrec packetId, .pubrel packetId] }
  else { s with inflight, trace := s.trace ++ [.pubrec packetId], running := false }

def acknowledged (s : Outbound) (packetId : PacketId) (e : DeliveryEvent) : Outbound :=
  { s with inflight := s.inflight.remove packetId, trace := s.trace ++ [e] }

inductive Action
  | arrive (publish : Publish)
  | timeouts (now : ℤ) (expired : OutInflightMessage → Bool)
  | deliver (now : ℤ) (expired sent : Bool)
  | processMessage (now : ℤ) (sent : Bool)
  | puback (packetId : PacketId)
  | pubrec (packetId : PacketId) (now : ℤ) (sent : Bool)
  | pubcomp (packetId : PacketId)

def exec (keepsPlace : Bool) (s : Outbound) : Action → Outbound
  | .arrive publish => s.arrive publish
  | .timeouts now expired => if s.running then s.timeouts now expired else s
  | .deliver now expired sent =>
    if s.running ∧ s.inflight.hasCredit then s.deliver keepsPlace now expired sent else s
  | .processMessage now sent => if s.running then s.processMessage keepsPlace now sent else s
  | .puback packetId => if s.running then s.acknowledged packetId (.puback packetId) else s
  | .pubrec packetId now sent => if s.running then s.received packetId now sent else s
  | .pubcomp packetId => if s.running then s.acknowledged packetId (.pubcomp packetId) else s

/-- The action is carried out in this state. -/
def Enabled (s : Outbound) : Action → Prop
  | .arrive _ => True
  | .deliver _ _ _ => s.running = true ∧ s.inflight.hasCredit = true
  | _ => s.running = true

def perform (keepsPlace : Bool) (s : Outbound) : Action → Outbound
  | .arrive publish => s.arrive publish
  | .timeouts now expired => s.timeouts now expired
  | .deliver now expired sent => s.deliver keepsPlace now expired sent
  | .processMessage now sent => s.processMessage keepsPlace now sent
  | .puback packetId => s.acknowledged packetId (.puback packetId)
  | .pubrec packetId now sent => s.received packetId now sent
  | .pubcomp packetId => s.acknowledged packetId (.pubcomp packetId)

theorem exec_cases (keepsPlace : Bool) (s : Outbound) (a : Action) :
    ¬ s.Enabled a ∧ s.exec keepsPlace a = s ∨
      s.Enabled a ∧ s.exec keepsPlace a = s.perform keepsPlace a := by
  by_cases h : s.Enabled a
  · refine .inr ⟨h, ?_⟩
    cases a with
    | arrive publish => rfl
    | _ => exact if_pos h
  · refine .inl ⟨h, ?_⟩
    cases a with
    | arrive publish => exact absurd trivial h
    | _ => exact if_neg h

def run (keepsPlace : Bool) (s : Outbound) (actions : List Action) : Outbound :=
  actions.foldl (exec keepsPlace) s

/-! ## What must not be repeated -/

section Trace

variable (k : PacketId)

def next : Option ℕ → DeliveryEvent → Option ℕ
  | last, .publish packetId message qos =>
    if packetId = k then if qos = .exactlyOnce then some message else none else last
  | last, .pubcomp packetId => if packetId = k then none else last
  | last, _ => last

/-- The message of QoS 2 that was sent last under the id, until it is complete. -/
def current (trace : List DeliveryEvent) : Option ℕ := trace.foldl (next k) none

end Trace

/-- After the PUBREC of an id, the message is never sent again, and before the PUBCOMP nothing is sent
under the id. -/
def NeverRepeated (trace : List DeliveryEvent) : Prop :=
  ∀ k pre mid post message message' qos,
    trace = pre ++ .pubrec k :: (mid ++ .publish k message' qos :: post) →
      current k pre = some message → message' ≠ message ∧ .pubcomp k ∈ mid

end Outbound

end FerroMq
