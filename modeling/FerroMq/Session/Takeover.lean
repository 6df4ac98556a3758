import FerroMq.Session.Outbound

/-!
# Taking over a session

A client that connects again sends a `Kick` to the channel of its session, waits for the answer and collects
what was not delivered into an `OfflineInfo`, which the new session sends itself.  Until then the session goes
on: with a connection as in `Outbound`, without one by moving messages from the channel to the delivery queue.
-/

namespace FerroMq

open Lib Codec

/-- What is handed over, as far as it is about messages. -/
structure OfflineInfo where
  offlineMessages : List Delivery
  inflightMessages : List OutInflightMessage

inductive ChannelMessage
  | session (m : SessionMessage)
  | sessionStateTransfer (info : OfflineInfo)
  /-- A `Kick` whose sender waits for the answer. -/
  | kick
  | closed
  /-- A request to subscribe or to unsubscribe, or a `Kick` whose sender is gone. -/
  | other

namespace OutInflight

def advanceNextId (self : OutInflight) (maxReserved : UInt16) : OutInflight :=
  { self with next := max self.next (if maxReserved = 65535 then 65535 else maxReserved + 1) }

def toInflightMessages (self : OutInflight) : List OutInflightMessage × OutInflight :=
  (self.queues.entries.map Prod.snd, { self with queues := .empty })

end OutInflight

namespace Outbound

def maxTransferId (messages : List OutInflightMessage) : Option UInt16 :=
  (messages.filterMap fun m => m.delivery.publish.packetId.map Subtype.val).max?

/-- What `transfer_session_state` does with the messages.  Those in flight are taken from the end. -/
def transferSessionState (expired : OutInflightMessage → Bool) (s : Outbound) (info : OfflineInfo) :
    Outbound :=
  let s := match maxTransferId info.inflightMessages with
    | some maxId => { s with inflight := s.inflight.advanceNextId maxId }
    | none => s
  let s := info.inflightMessages.reverse.foldl (reforward expired) s
  info.offlineMessages.foldl forward s

end Outbound

/-- Which loop a session is in.  It leaves both with the answer to a `Kick`. -/
inductive LoopPhase
  | online
  | offline
  | kicked
  deriving DecidableEq

/-- A session that may be taken over. -/
structure Takeover where
  inflight : OutInflight
  queue : List Delivery
  queueCap : ℕ
  /-- The number of messages for the client so far. -/
  arrived : ℕ
  channel : List ChannelMessage
  phase : LoopPhase
  /-- The messages that were acknowledged, or sent if nothing has to be acknowledged. -/
  acknowledged : List ℕ
  /-- The messages whose turn has come, in this order.  Each was sent, unless it had expired or the
  connection has failed. -/
  served : List ℕ
  info : Option OfflineInfo

namespace Takeover

def start (cap : UInt64) (retryInterval expiryInterval : ℤ) (queueCap : ℕ)
    (channel : List ChannelMessage) : Takeover where
  inflight := .new cap retryInterval expiryInterval
  queue := []
  queueCap
  arrived := 0
  channel
  phase := .online
  acknowledged := []
  served := []
  info := none

def outbound (s : Takeover) : Outbound where
  inflight := s.inflight
  rx := []
  queue := s.queue
  queueCap := s.queueCap
  arrived := s.arrived
  running := true
  trace := []

/-- A step of the event loop.  What the session sends to itself goes to the end of the channel, and a
session that has lost its connection goes on without one. -/
def act (s : Takeover) (f : Outbound → Outbound) : Takeover :=
  { s with
    inflight := (f s.outbound).inflight
    queue := (f s.outbound).queue
    arrived := (f s.outbound).arrived
    channel := s.channel ++ (f s.outbound).rx.map .session
    phase := if (f s.outbound).running then s.phase else .offline }

def messagesAt (s : Takeover) (packetId : PacketId) : List ℕ :=
  (s.inflight.queues.entries.filter fun e => e.1 = packetId).map fun e => e.2.delivery.message

/-- The answer to a `Kick`.  The channel is dropped together with the loop. -/
def kicked (s : Takeover) : Takeover := { s with phase := .kicked, channel := [] }

variable (keepsPlace : Bool)

def processOnline (s : Takeover) (now : ℤ) (expired : OutInflightMessage → Bool) (sent : Bool) :
    Takeover :=
  match s.channel with
  | [] => s
  | .session m :: channel =>
    { s with channel }.act fun out => { out with rx := [m] }.processMessage keepsPlace now sent
  | .sessionStateTransfer info :: channel =>
    { s with channel }.act fun out => out.transferSessionState expired info
  | .kick :: _ => s.kicked
  | .closed :: channel => { s with channel, phase := .offline }
  | .other :: channel => { s with channel }

/-- The messages that `try_recv` takes until the first one that is not a `Forward`. -/
def leadingForwards : List ChannelMessage → List Delivery
  | .session (.forward d) :: channel => d :: leadingForwards channel
  | _ => []

/-- One turn of `offline_run_loop`. -/
def processOffline (s : Takeover) : Takeover :=
  match s.channel with
  | [] => s
  | .session (.forward d) :: channel =>
    { s with channel, queue := Outbound.enqueue s.queueCap s.queue d }
  | .kick :: channel =>
    { s with queue := (leadingForwards channel).foldl (Outbound.enqueue s.queueCap) s.queue }.kicked
  | _ :: channel => { s with channel }

def deliver (s : Takeover) (now : ℤ) (expired sent : Bool) : Takeover :=
  match s.queue with
  | [] => s
  | d :: _ =>
    { s.act fun out => out.deliver keepsPlace now expired sent with
      served := s.served ++ [d.message]
      acknowledged := s.acknowledged ++
        if d.publish.qos = .atMostOnce ∧ expired = false ∧ sent then [d.message] else [] }

def toOfflineInfo (s : Takeover) : OfflineInfo := ⟨s.queue, s.inflight.toInflightMessages.1⟩

def resume (s : Takeover) : Takeover :=
  { s with
    info := some s.toOfflineInfo
    queue := []
    inflight := s.inflight.toInflightMessages.2
    channel := [] }

inductive Action
  | arrive (publish : Publish)
  | timeouts (now : ℤ) (expired : OutInflightMessage → Bool)
  | deliver (now : ℤ) (expired sent : Bool)
  | process (now : ℤ) (expired : OutInflightMessage → Bool) (sent : Bool)
  | puback (packetId : PacketId)
  | pubrec (packetId : PacketId) (now : ℤ) (sent : Bool)
  | pubcomp (packetId : PacketId)
  | disconnect
  /-- Anything else that is sent to the session. -/
  | send (m : ChannelMessage)
  /-- The new connection has got the answer, or has waited for five seconds. -/
  | resume

def execOnline (s : Takeover) : Action → Takeover
  | .timeouts now expired => s.act fun out => out.timeouts now expired
  | .deliver now expired sent =>
    if s.inflight.hasCredit then s.deliver keepsPlace now expired sent else s
  | .process now expired sent => s.processOnline keepsPlace now expired sent
  | .puback packetId =>
    { s.act fun out => out.acknowledged packetId (.puback packetId) with
      acknowledged := s.acknowledged ++ s.messagesAt packetId }
  | .pubrec packetId now sent => s.act fun out => out.received packetId now sent
  | .pubcomp packetId =>
    { s.act fun out => out.acknowledged packetId (.pubcomp packetId) with
      acknowledged := s.acknowledged ++ s.messagesAt packetId }
  | .disconnect => { s with phase := .offline }
  | .arrive publish => s.act fun out => out.arrive publish
  | .send m => { s with channel := s.channel ++ [m] }
  | .resume => s.resume

def execOffline (s : Takeover) : Action → Takeover
  | .process .. => s.processOffline
  | .arrive publish => s.act fun out => out.arrive publish
  | .send m => { s with channel := s.channel ++ [m] }
  | .resume => s.resume
  | _ => s

/-- Between the answer and the removal of the session, a message for it is lost. -/
def execKicked (s : Takeover) : Action → Takeover
  | .arrive _ => { s with arrived := s.arrived + 1 }
  | .resume => s.resume
  | _ => s

def exec (s : Takeover) (a : Action) : Takeover :=
  match s.info, s.phase with
  | some _, _ => s
  | none, .online => s.execOnline keepsPlace a
  | none, .offline => s.execOffline a
  | none, .kicked => s.execKicked a

def run (s : Takeover) (actions : List Action) : Takeover := actions.foldl (exec keepsPlace) s

end Takeover

end FerroMq
