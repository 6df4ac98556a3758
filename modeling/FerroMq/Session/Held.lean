import FerroMq.Session.Takeover

/-!
# The messages of a session

Every message for the client is in the channel, in the delivery queue or in the inflight window until it is
acknowledged: what a step of the event loop loses of them, as a multiset, and when that is nothing.
-/

namespace FerroMq

open Lib Codec List

def SessionMessage.message : SessionMessage → ℕ
  | .forward d => d.message
  | .sendRerelease m => m.delivery.message

def OfflineInfo.messages (info : OfflineInfo) : List ℕ :=
  info.offlineMessages.map Delivery.message ++
    info.inflightMessages.map fun m => m.delivery.message

def ChannelMessage.messages : ChannelMessage → List ℕ
  | .session m => [m.message]
  | .sessionStateTransfer info => info.messages
  | .kick | .closed | .other => []

namespace OutInflight

def messages (self : OutInflight) : Multiset ℕ :=
  self.queues.entries.map fun e => e.2.delivery.message

def messagesAt (self : OutInflight) (packetId : PacketId) : Multiset ℕ :=
  (self.queues.entries.filter fun e => e.1 = packetId).map fun e => e.2.delivery.message

variable {self : OutInflight} {packetId : PacketId}

theorem messagesAt_eq_zero_iff : self.messagesAt packetId = 0 ↔ packetId ∉ self.queues.keys := by
  rw [messagesAt, Multiset.coe_eq_zero, map_eq_nil_iff, filter_eq_nil_iff,
    DequeMap.mem_keys, not_exists]
  constructor
  · exact fun h v hv => h _ hv (decide_eq_true rfl)
  · rintro h ⟨k, v⟩ he hk
    exact h v (of_decide_eq_true hk ▸ he)

/-- A message can be kept under the id, and nothing is there yet. -/
def Free (self : OutInflight) : Option PacketId → Prop
  | none => False
  | some packetId => packetId ∉ self.queues.keys

theorem messages_remove (self : OutInflight) (packetId : PacketId) :
    (self.remove packetId).messages + self.messagesAt packetId = self.messages := by
  have hperm := filter_append_perm (fun e : PacketId × OutInflightMessage => e.1 = packetId)
    self.queues.entries
  rw [messages, messagesAt, messages, Multiset.coe_add, ← map_append]
  refine Multiset.coe_eq_coe.2 (List.Perm.map _ (perm_append_comm.trans ?_))
  simpa [remove, DequeMap.remove] using hperm

theorem messages_pushBack {m : OutInflightMessage} (keepsPlace : Bool)
    (h : m.delivery.publish.packetId = some packetId) :
    (self.pushBack keepsPlace m).messages + self.messagesAt packetId =
      self.messages + {m.delivery.message} := by
  have hinsert : (self.pushBack keepsPlace m).messages =
      (self.remove packetId).messages + {m.delivery.message} := by
    have hperm := (self.queues.entries_insert_perm keepsPlace packetId m).map
      fun e => e.2.delivery.message
    rw [map_append] at hperm
    rw [pushBack, h]
    exact Multiset.coe_eq_coe.2 hperm
  rw [hinsert, add_right_comm, messages_remove]

theorem messages_updateStatus (self : OutInflight) (packetId : PacketId) (s : MomentStatus) (now : ℤ) :
    (self.updateStatus packetId s now).messages = self.messages := by
  simp only [messages, updateStatus, DequeMap.modify, map_map]
  refine congrArg _ (map_congr_left fun e _ => ?_)
  rw [Function.comp_apply]
  split_ifs <;> rfl

def timedOut (self : OutInflight) (now : ℤ) : List OutInflightMessage :=
  if self.interval = 0 then []
  else (self.queues.entries.map Prod.snd).takeWhile fun m => m.timeout self.interval now

theorem timedOut_of_none {now : ℤ} (h : self.popFrontTimeout now = none) : self.timedOut now = [] := by
  obtain ⟨cap, interval, next, ⟨entries, nodup⟩⟩ := self
  by_cases hinterval : interval = 0
  · exact if_pos hinterval
  cases entries with
  | nil => exact if_neg hinterval
  | cons e entries =>
    have htimeout : ¬ e.2.timeout interval now = true := by
      intro htimeout
      simp [popFrontTimeout, frontTimeout, popFront, DequeMap.popFront, hinterval, htimeout] at h
    rw [timedOut, if_neg hinterval, map_cons, takeWhile_cons, if_neg htimeout]

theorem timedOut_of_some {now : ℤ} {m : OutInflightMessage} {self' : OutInflight}
    (h : self.popFrontTimeout now = some (m, self')) :
    self.timedOut now = m :: self'.timedOut now ∧
      self.messages = {m.delivery.message} + self'.messages ∧
      self.queues.entries.length = self'.queues.entries.length + 1 := by
  obtain ⟨htimeout, hinterval, k, hentries⟩ := popFrontTimeout_eq_some h
  have hne : self.interval ≠ 0 := by
    intro hzero
    rw [OutInflightMessage.timeout, hzero] at htimeout
    exact absurd (of_decide_eq_true htimeout).1 (lt_irrefl 0)
  refine ⟨?_, ?_, ?_⟩
  · rw [timedOut, timedOut, hinterval, if_neg hne, if_neg hne, hentries, map_cons,
      takeWhile_cons, if_pos htimeout]
  · rw [messages, messages, hentries]
    rfl
  · rw [hentries, length_cons]

end OutInflight

namespace Outbound

def held (s : Outbound) : Multiset ℕ :=
  s.rx.map SessionMessage.message + (s.queue.map Delivery.message + s.inflight.messages)

variable {s : Outbound}

theorem held_send (s : Outbound) (m : SessionMessage) :
    { s with rx := s.rx ++ [m] }.held = s.held + {m.message} := by
  have hrx : ((s.rx ++ [m]).map SessionMessage.message : Multiset ℕ) =
      s.rx.map SessionMessage.message + {m.message} := by
    rw [map_append, ← Multiset.coe_add]
    rfl
  rw [held, hrx, add_right_comm]
  rfl

/-! ### Time-outs and transfer -/

/-- A message whose PUBREL is not sent again because the message has expired. -/
def Abandoned (expired : OutInflightMessage → Bool) (m : OutInflightMessage) : Prop :=
  m.status = .unComplete ∧ expired m = true

instance (expired : OutInflightMessage → Bool) : DecidablePred (Abandoned expired) :=
  fun m => inferInstanceAs (Decidable (m.status = .unComplete ∧ expired m = true))

def abandoned (expired : OutInflightMessage → Bool) (l : List OutInflightMessage) : Multiset ℕ :=
  (l.filter fun m => Abandoned expired m).map fun m => m.delivery.message

variable {expired : OutInflightMessage → Bool}

theorem abandoned_eq_zero_iff {l : List OutInflightMessage} :
    abandoned expired l = 0 ↔ ∀ m ∈ l, ¬ Abandoned expired m := by
  rw [abandoned, Multiset.coe_eq_zero, map_eq_nil_iff, filter_eq_nil_iff]
  simp only [decide_eq_true_eq]

theorem abandoned_cons (m : OutInflightMessage) (l : List OutInflightMessage) :
    abandoned expired (m :: l) = abandoned expired [m] + abandoned expired l := by
  rw [abandoned, abandoned, abandoned, Multiset.coe_add, ← map_append, ← filter_append]
  rfl

theorem held_reforward (s : Outbound) (m : OutInflightMessage) :
    (reforward expired s m).held + abandoned expired [m] = s.held + {m.delivery.message} := by
  by_cases h : Abandoned expired m
  · have hlost : abandoned expired [m] = {m.delivery.message} := by
      simp [abandoned, h]
    have hsame : reforward expired s m = s := by
      rw [reforward, h.1]
      exact if_pos h.2
    rw [hlost, hsame]
  · have hlost : abandoned expired [m] = 0 :=
      abandoned_eq_zero_iff.2 fun m' hm' => by rwa [mem_singleton.1 hm']
    rw [hlost, add_zero, reforward]
    cases hstatus : m.status with
    | unAck | unReceived => exact held_send s (.forward _)
    | unComplete =>
      have hexpired : ¬ expired m = true := fun he => h ⟨hstatus, he⟩
      simp only [if_neg hexpired]
      exact held_send s (.sendRerelease m)

theorem held_foldl_reforward (l : List OutInflightMessage) (s : Outbound) :
    (l.foldl (reforward expired) s).held + abandoned expired l =
      s.held + l.map fun m => m.delivery.message := by
  induction l generalizing s with
  | nil => rfl
  | cons m l ih =>
    rw [foldl_cons, abandoned_cons, add_comm (abandoned expired [m]), ← add_assoc, ih,
      add_right_comm, held_reforward, add_assoc]
    rfl

theorem held_foldl_forward (l : List Delivery) (s : Outbound) :
    (l.foldl forward s).held = s.held + l.map Delivery.message := by
  induction l generalizing s with
  | nil => exact (add_zero _).symm
  | cons d l ih =>
    rw [foldl_cons, ih, forward, held_send, add_assoc]
    rfl

theorem held_timeoutLoop (now : ℤ) (n : ℕ) (s : Outbound) (hn : s.inflight.queues.entries.length ≤ n) :
    (timeoutLoop now expired n s).held + abandoned expired (s.inflight.timedOut now) = s.held := by
  induction n generalizing s with
  | zero =>
    have hpop : s.inflight.popFrontTimeout now = none := by
      rcases h : s.inflight.popFrontTimeout now with _ | ⟨m, inflight⟩
      · rfl
      · have hlen := (OutInflight.timedOut_of_some h).2.2
        omega
    rw [OutInflight.timedOut_of_none hpop]
    exact add_zero _
  | succ n ih =>
    rw [timeoutLoop]
    rcases h : s.inflight.popFrontTimeout now with _ | ⟨m, inflight⟩
    · rw [OutInflight.timedOut_of_none h]
      exact add_zero _
    · obtain ⟨htimedOut, hmessages, hlen⟩ := OutInflight.timedOut_of_some h
      have hinflight : (reforward expired { s with inflight } m).inflight = inflight := by
        unfold reforward
        split
        · rfl
        · rfl
        · split_ifs <;> rfl
      have hheld : s.held = { s with inflight }.held + {m.delivery.message} := by
        simp only [held, hmessages]
        abel
      have hrest := ih (reforward expired { s with inflight } m) (by rw [hinflight]; omega)
      rw [hinflight] at hrest
      rw [htimedOut, abandoned_cons, add_comm (abandoned expired [m]), ← add_assoc, hrest, hheld,
        held_reforward]

theorem held_timeouts (s : Outbound) (now : ℤ) :
    (s.timeouts now expired).held + abandoned expired (s.inflight.timedOut now) = s.held :=
  held_timeoutLoop now _ s le_rfl

theorem abandoned_reverse (l : List OutInflightMessage) :
    abandoned expired l.reverse = abandoned expired l := by
  rw [abandoned, abandoned, filter_reverse, map_reverse, Multiset.coe_reverse]

theorem held_transferSessionState (s : Outbound) (info : OfflineInfo) :
    (s.transferSessionState expired info).held + abandoned expired info.inflightMessages =
      s.held + info.messages := by
  have hadvance (s' : Outbound) (hs' : s'.held = s.held) :
      (info.offlineMessages.foldl forward
        (info.inflightMessages.reverse.foldl (reforward expired) s')).held +
          abandoned expired info.inflightMessages = s.held + info.messages := by
    have hinflight := @held_foldl_reforward expired info.inflightMessages.reverse s'
    rw [abandoned_reverse, map_reverse, Multiset.coe_reverse, hs'] at hinflight
    rw [held_foldl_forward, add_right_comm, hinflight, OfflineInfo.messages, ← Multiset.coe_add,
      add_assoc, add_comm (Multiset.ofList (info.inflightMessages.map _))]
  unfold transferSessionState
  cases maxTransferId info.inflightMessages with
  | none => exact hadvance s rfl
  | some maxId => exact hadvance { s with inflight := s.inflight.advanceNextId maxId } rfl

/-! ### The delivery queue -/

def overflow (queueCap : ℕ) (queue : List Delivery) (d : Delivery) : Multiset ℕ :=
  if queue.length < queueCap then 0
  else if d.publish.qos = .atMostOnce then {d.message}
  else (queue.take 1).map Delivery.message + if queue.tail.length < queueCap then 0 else {d.message}

theorem overflow_eq_zero_iff {queueCap : ℕ} {queue : List Delivery} {d : Delivery} :
    overflow queueCap queue d = 0 ↔ queue.length < queueCap := by
  refine ⟨fun h => ?_, fun h => if_pos h⟩
  by_contra hfull
  rw [overflow, if_neg hfull] at h
  split_ifs at h with hqos htail
  · exact Multiset.singleton_ne_zero _ h
  · cases queue with
    | nil => exact hfull htail
    | cons d' queue => exact Multiset.singleton_ne_zero d'.message (add_eq_zero.1 h).1
  · exact Multiset.singleton_ne_zero _ (add_eq_zero.1 h).2

theorem messages_enqueue (queueCap : ℕ) (queue : List Delivery) (d : Delivery) :
    ((enqueue queueCap queue d).map Delivery.message : Multiset ℕ) + overflow queueCap queue d =
      queue.map Delivery.message + {d.message} := by
  have hsplit : (queue.map Delivery.message : Multiset ℕ) =
      (queue.take 1).map Delivery.message + queue.tail.map Delivery.message := by
    rw [Multiset.coe_add, ← map_append, ← drop_one, take_append_drop]
  have happend (l : List Delivery) : ((l ++ [d]).map Delivery.message : Multiset ℕ) =
      l.map Delivery.message + {d.message} := by
    rw [map_append, ← Multiset.coe_add]
    rfl
  unfold enqueue overflow
  split_ifs with hroom hqos htail
  · rw [happend, add_zero]
  · rfl
  · rw [happend, hsplit, add_zero]
    abel
  · rw [hsplit]
    abel

def overflows (queueCap : ℕ) : List Delivery → List Delivery → Multiset ℕ
  | _, [] => 0
  | queue, d :: ds => overflow queueCap queue d + overflows queueCap (enqueue queueCap queue d) ds

theorem overflows_eq_zero_iff {queueCap : ℕ} {queue ds : List Delivery} :
    overflows queueCap queue ds = 0 ↔ ds = [] ∨ queue.length + ds.length ≤ queueCap := by
  induction ds generalizing queue with
  | nil => exact iff_of_true rfl (Or.inl rfl)
  | cons d ds ih =>
    rw [overflows, add_eq_zero, overflow_eq_zero_iff, ih]
    constructor
    · rintro ⟨hroom, h⟩
      rw [enqueue, if_pos hroom, length_append, length_singleton] at h
      rw [length_cons]
      refine Or.inr ?_
      rcases h with rfl | h
      · exact hroom
      · omega
    · intro h
      have hlen := h.resolve_left (cons_ne_nil d ds)
      rw [length_cons] at hlen
      have hroom : queue.length < queueCap := by omega
      refine ⟨hroom, Or.inr ?_⟩
      rw [enqueue, if_pos hroom, length_append, length_singleton]
      omega

theorem messages_foldl_enqueue (queueCap : ℕ) (ds queue : List Delivery) :
    ((ds.foldl (enqueue queueCap) queue).map Delivery.message : Multiset ℕ) +
      overflows queueCap queue ds = queue.map Delivery.message + ds.map Delivery.message := by
  induction ds generalizing queue with
  | nil => rfl
  | cons d ds ih =>
    rw [foldl_cons, overflows, add_comm (overflow _ _ _), ← add_assoc, ih, add_right_comm,
      messages_enqueue, add_assoc]
    rfl

/-! ### The steps of the loop -/

/-- What the processing of a message loses. -/
def lostByProcess (s : Outbound) : SessionMessage → Multiset ℕ
  | .forward d => overflow s.queueCap s.queue d
  | .sendRerelease m =>
    match m.delivery.publish.packetId with
    | none => {m.delivery.message}
    | some packetId => s.inflight.messagesAt packetId

theorem lostByProcess_sendRerelease_eq_zero_iff {m : OutInflightMessage} :
    lostByProcess s (.sendRerelease m) = 0 ↔ s.inflight.Free m.delivery.publish.packetId := by
  rw [lostByProcess]
  cases m.delivery.publish.packetId with
  | none => exact iff_of_false (Multiset.singleton_ne_zero _) not_false
  | some packetId => exact OutInflight.messagesAt_eq_zero_iff

variable (keepsPlace : Bool)

theorem held_pushBack {s' : Outbound} {m : OutInflightMessage}
    {packetId : PacketId} (h : m.delivery.publish.packetId = some packetId) (hrx : s'.rx = s.rx)
    (hqueue : s'.queue = s.queue) (hinflight : s'.inflight = s.inflight.pushBack keepsPlace m) :
    s'.held + s.inflight.messagesAt packetId = s.held + {m.delivery.message} := by
  rw [held, held, hrx, hqueue, hinflight, add_assoc, add_assoc,
    OutInflight.messages_pushBack keepsPlace h]
  abel

theorem held_processMessage (hrx : s.rx = []) (m : SessionMessage) (now : ℤ)
    (sent : Bool) :
    ({ s with rx := [m] }.processMessage keepsPlace now sent).held + lostByProcess s m =
      s.held + {m.message} := by
  obtain ⟨inflight, _, queue, queueCap, arrived, running, trace⟩ := s
  obtain rfl := hrx
  cases m with
  | forward d =>
    have henqueue := messages_enqueue queueCap queue d
    simp only [processMessage, lostByProcess, held, SessionMessage.message]
    rw [add_assoc, add_right_comm, henqueue]
    abel
  | sendRerelease m =>
    cases hid : m.delivery.publish.packetId with
    | none =>
      simp only [processMessage, lostByProcess, sendRerelease, hid]
      rfl
    | some packetId =>
      simp only [processMessage, lostByProcess, sendRerelease, hid]
      refine held_pushBack (s := ⟨inflight, [], queue, queueCap, arrived, running, trace⟩)
        (m := ⟨m.delivery, .unComplete, now⟩) keepsPlace hid ?_ ?_ ?_ <;> cases sent <;> rfl

def replaced (inflight : OutInflight) (d : Delivery) : Multiset ℕ :=
  match momentStatus d.publish.qos, d.publish.packetId with
  | none, _ => 0
  | some _, none => {d.message}
  | some _, some packetId => inflight.messagesAt packetId

theorem replaced_eq_zero_iff {inflight : OutInflight} {d : Delivery} :
    replaced inflight d = 0 ↔ (d.publish.qos ≠ .atMostOnce → inflight.Free d.publish.packetId) := by
  have hkept (status : MomentStatus) (hstatus : momentStatus d.publish.qos = some status) :
      replaced inflight d = 0 ↔ inflight.Free d.publish.packetId := by
    rw [replaced, hstatus]
    cases d.publish.packetId with
    | none => exact iff_of_false (Multiset.singleton_ne_zero _) not_false
    | some packetId => exact OutInflight.messagesAt_eq_zero_iff
  cases hqos : d.publish.qos with
  | atMostOnce =>
    rw [replaced, hqos]
    exact iff_of_true rfl fun h => absurd rfl h
  | atLeastOnce =>
    rw [hkept .unAck (by rw [hqos]; rfl)]
    exact ⟨fun h _ => h, fun h => h (by decide)⟩
  | exactlyOnce =>
    rw [hkept .unReceived (by rw [hqos]; rfl)]
    exact ⟨fun h _ => h, fun h => h (by decide)⟩

def lostByDeliver (s : Outbound) (d : Delivery) (expired sent : Bool) : Multiset ℕ :=
  if expired = true ∨ sent = false then {d.message}
  else if needsId d.publish then if s.inflight.nextId.1 = none then {d.message} else 0
  else replaced s.inflight d

/-- A message that is sent and needs no acknowledgement. -/
def finished (d : Delivery) (expired sent : Bool) : List ℕ :=
  if d.publish.qos = .atMostOnce ∧ expired = false ∧ sent then [d.message] else []

theorem held_sendPublish (s : Outbound) (d : Delivery) (now : ℤ) (sent : Bool) :
    (sendPublish keepsPlace s d now sent).held +
      (finished d false sent + if sent then replaced s.inflight d else {d.message}) =
      s.held + {d.message} := by
  cases sent with
  | false =>
    have hfinished : finished d false false = [] := if_neg fun h => Bool.false_ne_true h.2.2
    rw [hfinished]
    rfl
  | true =>
    by_cases hqos : d.publish.qos = .atMostOnce
    · have hfinished : finished d false true = [d.message] := if_pos ⟨hqos, rfl, rfl⟩
      rw [hfinished, sendPublish, if_pos rfl, if_pos rfl, replaced, hqos]
      rfl
    · have hfinished : finished d false true = [] := if_neg fun h => hqos h.1
      obtain ⟨status, hstatus⟩ : ∃ status, momentStatus d.publish.qos = some status := by
        cases h : d.publish.qos with
        | atMostOnce => exact absurd h hqos
        | atLeastOnce | exactlyOnce => exact ⟨_, rfl⟩
      rw [hfinished, sendPublish, if_pos rfl, if_pos rfl, replaced, hstatus, Multiset.coe_nil, zero_add]
      cases hid : d.publish.packetId with
      | none =>
        simp only [OutInflight.pushBack, hid]
        rfl
      | some packetId =>
        exact held_pushBack (m := ⟨d, status, now⟩) keepsPlace hid rfl rfl rfl

theorem held_deliver {d : Delivery} {queue : List Delivery}
    (hqueue : s.queue = d :: queue) (now : ℤ) (expired sent : Bool) :
    (s.deliver keepsPlace now expired sent).held +
      (finished d expired sent + lostByDeliver s d expired sent) = s.held := by
  have hheld (inflight : OutInflight) (h : inflight.queues = s.inflight.queues) :
      { s with queue, inflight }.held + {d.message} = s.held := by
    simp only [held, hqueue, OutInflight.messages, h, map_cons, ← Multiset.cons_coe,
      ← Multiset.singleton_add]
    abel
  rw [deliver, hqueue, lostByDeliver]
  dsimp only
  cases expired with
  | true =>
    have hfinished : finished d true sent = [] := if_neg fun h => Bool.false_ne_true h.2.1.symm
    rw [if_pos rfl, if_pos (Or.inl rfl), hfinished, ← hheld s.inflight rfl]
    rfl
  | false =>
    rw [if_neg Bool.false_ne_true]
    by_cases hneeds : needsId d.publish = true
    · have hfinished : finished d false sent = [] :=
        if_neg fun h => (of_decide_eq_true hneeds).1 h.1
      have hspec := s.inflight.nextIdLoop_spec 65535
      rw [if_pos hneeds, if_pos hneeds, hfinished, Multiset.coe_nil, zero_add]
      rcases hnext : s.inflight.nextId with ⟨_ | packetId, inflight⟩
      · rw [OutInflight.nextId] at hnext
        rw [hnext] at hspec
        rw [if_pos rfl, ite_self, ← hheld inflight hspec.1]
        rfl
      · -- the id is free, so nothing is replaced
        rw [OutInflight.nextId] at hnext
        rw [hnext] at hspec
        have hsend := held_sendPublish keepsPlace { s with queue, inflight }
          { d with publish := { d.publish with packetId := some packetId } } now sent
        have hfinished' : finished { d with publish := { d.publish with packetId := some packetId } }
          false sent = [] := hfinished
        have hreplaced : replaced inflight
            { d with publish := { d.publish with packetId := some packetId } } = 0 :=
          replaced_eq_zero_iff.2 fun _ => show packetId ∉ inflight.queues.keys by
            rw [hspec.1]
            exact hspec.2 packetId rfl
        rw [hfinished', hreplaced, Multiset.coe_nil, zero_add, hheld inflight hspec.1] at hsend
        cases sent with
        | false | true => exact hsend
    · rw [if_neg hneeds, if_neg hneeds, ← hheld s.inflight rfl]
      have hsend := held_sendPublish keepsPlace { s with queue } d now sent
      cases sent with
      | false | true => exact hsend

theorem held_received (s : Outbound) (packetId : PacketId) (now : ℤ) (sent : Bool) :
    (s.received packetId now sent).held = s.held := by
  have hupdate := s.inflight.messages_updateStatus packetId .unComplete now
  cases sent with
  | false => simp only [received, held, if_neg Bool.false_ne_true, hupdate]
  | true => simp only [received, held, if_pos, hupdate]

theorem held_acknowledged (s : Outbound) (packetId : PacketId) (e : DeliveryEvent) :
    (s.acknowledged packetId e).held + s.inflight.messagesAt packetId = s.held := by
  simp only [acknowledged, held, add_assoc, OutInflight.messages_remove]

theorem held_arrive (s : Outbound) (publish : Publish) :
    (s.arrive publish).held = s.held + {s.arrived} :=
  held_send s _

end Outbound

end FerroMq
