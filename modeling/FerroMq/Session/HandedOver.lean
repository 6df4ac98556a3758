import FerroMq.Session.Held

/-!
# What is handed over

A message is kept by its session until it is acknowledged or handed over.  What a step loses is `lost`
(`balance_exec`), and `Heeds` are the steps that lose nothing.  A connected session answers a `Kick` at once;
one that is not takes the messages behind it first, up to the first message of another kind.
-/

namespace FerroMq

open Lib Codec Multiset

namespace Takeover

variable {s : Takeover} {keepsPlace : Bool}

/-! ## What a step keeps -/

def waiting (s : Takeover) : Multiset ℕ := s.channel.flatMap ChannelMessage.messages

def settled (s : Takeover) : Multiset ℕ :=
  s.acknowledged + s.info.elim [] OfflineInfo.messages

def balance (s : Takeover) : Multiset ℕ := s.waiting + s.outbound.held + s.settled

theorem waiting_act (s : Takeover) (f : Outbound → Outbound) :
    (s.act f).waiting + (s.act f).outbound.held = s.waiting + (f s.outbound).held := by
  have hrx : ((f s.outbound).rx.map ChannelMessage.session).flatMap ChannelMessage.messages =
      (f s.outbound).rx.map SessionMessage.message := by
    rw [List.flatMap_map]
    exact List.map_eq_flatMap.symm
  have hwaiting : (s.act f).waiting = s.waiting + (f s.outbound).rx.map SessionMessage.message := by
    rw [waiting, act, List.flatMap_append, hrx, ← coe_add]
    rfl
  rw [hwaiting, add_assoc]
  refine congrArg _ ?_
  exact congrArg _ (zero_add _)

theorem balance_act {f : Outbound → Outbound} {loss gain : Multiset ℕ}
    (h : (f s.outbound).held + loss = s.outbound.held + gain) :
    (s.act f).balance + loss = s.balance + gain := by
  have hsettled : (s.act f).settled = s.settled := rfl
  rw [balance, waiting_act, hsettled, add_right_comm, add_assoc s.waiting, h, balance]
  abel

theorem balance_acknowledged (s : Takeover) (l : List ℕ) :
    { s with acknowledged := s.acknowledged ++ l }.balance = s.balance + l := by
  have hsettled : { s with acknowledged := s.acknowledged ++ l }.settled = s.settled + l := by
    rw [settled, settled, ← coe_add, add_right_comm]
  rw [balance, hsettled, ← add_assoc]
  rfl

variable {channel : List ChannelMessage} {d : Delivery} {a : Action}

theorem balance_take {m : ChannelMessage}
    (h : s.channel = m :: channel) : { s with channel }.balance + m.messages = s.balance := by
  have hwaiting : s.waiting = m.messages + { s with channel }.waiting := by
    rw [waiting, h, List.flatMap_cons, ← coe_add]
    rfl
  rw [balance, balance, hwaiting]
  change _ + s.outbound.held + s.settled + _ = _
  abel

theorem balance_kicked (s : Takeover) : s.kicked.balance + s.waiting = s.balance := by
  have hkicked : s.kicked.balance = s.outbound.held + s.settled :=
    congrArg (· + s.settled) (zero_add s.outbound.held)
  rw [hkicked, balance]
  abel

theorem balance_resume (h : s.info = none) : s.resume.balance + s.waiting = s.balance := by
  have hheld : s.outbound.held = s.queue.map Delivery.message + s.inflight.messages := zero_add _
  have hresume : s.resume.balance =
      s.acknowledged + (s.queue.map Delivery.message + s.inflight.messages) := by
    have hinfo : s.resume.settled = s.acknowledged +
        ((s.queue.map Delivery.message ++
          (s.inflight.queues.entries.map Prod.snd).map fun m => m.delivery.message : List ℕ) :
            Multiset ℕ) := rfl
    rw [List.map_map, ← coe_add] at hinfo
    exact (zero_add _).trans hinfo
  have hsettled : s.settled = s.acknowledged := by
    rw [settled, h]
    exact add_zero _
  rw [hresume, balance, hsettled, hheld]
  abel

/-! ## What a step loses -/

def lostOnline (s : Takeover) : Action → Multiset ℕ
  | .timeouts now expired => Outbound.abandoned expired (s.inflight.timedOut now)
  | .deliver _ expired sent =>
    match s.queue with
    | [] => 0
    | d :: _ => if s.inflight.hasCredit then s.outbound.lostByDeliver d expired sent else 0
  | .process _ expired _ =>
    match s.channel with
    | .session m :: _ => s.outbound.lostByProcess m
    | .sessionStateTransfer info :: _ => Outbound.abandoned expired info.inflightMessages
    | .kick :: channel => channel.flatMap ChannelMessage.messages
    | _ => 0
  | .resume => s.waiting
  | _ => 0

/-- The messages behind a `Kick` that are not read any more. -/
def unread (channel : List ChannelMessage) : List ChannelMessage :=
  channel.drop (leadingForwards channel).length

def lostOffline (s : Takeover) : Action → Multiset ℕ
  | .process .. =>
    match s.channel with
    | [] => 0
    | .session (.forward d) :: _ => Outbound.overflow s.queueCap s.queue d
    | .kick :: channel =>
      Outbound.overflows s.queueCap s.queue (leadingForwards channel) +
        (unread channel).flatMap ChannelMessage.messages
    | m :: _ => m.messages
  | .resume => s.waiting
  | _ => 0

def lostKicked (s : Takeover) : Action → Multiset ℕ
  | .arrive _ => {s.arrived}
  | .send m => m.messages
  | .resume => s.waiting
  | _ => 0

def lost (s : Takeover) (a : Action) : Multiset ℕ :=
  match s.info, s.phase with
  | some _, _ => 0
  | none, .online => s.lostOnline a
  | none, .offline => s.lostOffline a
  | none, .kicked => s.lostKicked a

/-- The messages that come in with a step. -/
def gained (s : Takeover) : Action → Multiset ℕ
  | .arrive _ => {s.arrived}
  | .send m => m.messages
  | _ => 0

def accepted (s : Takeover) (a : Action) : Multiset ℕ :=
  match s.info with
  | some _ => 0
  | none => s.gained a

theorem balance_process {f : Outbound → Outbound} {m : ChannelMessage}
    {loss : Multiset ℕ} (hchannel : s.channel = m :: channel)
    (h : (f s.outbound).held + loss = s.outbound.held + m.messages) :
    ({ s with channel }.act f).balance + loss = s.balance := by
  have hact := balance_act (s := { s with channel }) (f := f) h
  rw [hact, balance_take hchannel]

theorem balance_processOnline (now : ℤ) (expired : OutInflightMessage → Bool) (sent : Bool) :
    (s.processOnline keepsPlace now expired sent).balance +
      s.lostOnline (.process now expired sent) = s.balance := by
  rw [processOnline, lostOnline]
  rcases hchannel : s.channel with _ | ⟨m | info | _ | _ | _, channel⟩
  · exact add_zero _
  · exact balance_process hchannel (Outbound.held_processMessage keepsPlace rfl m now sent)
  · exact balance_process hchannel (Outbound.held_transferSessionState s.outbound info)
  · have hwaiting : s.waiting = channel.flatMap ChannelMessage.messages := by
      rw [waiting, hchannel]
      rfl
    exact (congrArg (s.kicked.balance + ·) hwaiting.symm).trans (balance_kicked s)
  · exact balance_take hchannel
  · exact balance_take hchannel

theorem balance_deliver (now : ℤ) (expired sent : Bool) {queue : List Delivery}
    (hqueue : s.queue = d :: queue) :
    (s.deliver keepsPlace now expired sent).balance + s.outbound.lostByDeliver d expired sent = s.balance := by
  have hheld := Outbound.held_deliver keepsPlace (s := s.outbound) hqueue now expired sent
  have hact := balance_act (s := s) (f := fun out => out.deliver keepsPlace now expired sent)
    (hheld.trans (add_zero _).symm)
  have hdeliver : (s.deliver keepsPlace now expired sent).balance =
      (s.act fun out => out.deliver keepsPlace now expired sent).balance +
        Outbound.finished d expired sent := by
    rw [deliver, hqueue, ← balance_acknowledged]
    rfl
  rw [hdeliver, add_assoc, hact, add_zero]

theorem balance_acknowledge (packetId : PacketId) (e : DeliveryEvent) :
    { s.act fun out => out.acknowledged packetId e with
      acknowledged := s.acknowledged ++ s.messagesAt packetId }.balance = s.balance := by
  have hact := balance_act (s := s) (f := fun out => out.acknowledged packetId e)
    ((Outbound.held_acknowledged s.outbound packetId e).trans (add_zero _).symm)
  exact (balance_acknowledged (s.act fun out => out.acknowledged packetId e)
    (s.messagesAt packetId)).trans (hact.trans (add_zero _))

theorem balance_arrive (s : Takeover) (publish : Publish) :
    (s.act fun out => out.arrive publish).balance = s.balance + {s.arrived} := by
  have hact := balance_act (s := s) (f := fun out => out.arrive publish) 
    ((add_zero _).trans (Outbound.held_arrive s.outbound publish))
  rwa [add_zero] at hact

theorem balance_send (s : Takeover) (m : ChannelMessage) :
    { s with channel := s.channel ++ [m] }.balance = s.balance + m.messages := by
  have hwaiting : { s with channel := s.channel ++ [m] }.waiting = s.waiting + m.messages := by
    rw [waiting, waiting, List.flatMap_append, ← coe_add, List.flatMap_singleton]
  rw [balance, hwaiting, balance]
  change _ + s.outbound.held + s.settled = _
  abel

theorem balance_execOnline (h : s.info = none) (a : Action) :
    (s.execOnline keepsPlace a).balance + s.lostOnline a = s.balance + s.gained a := by
  cases a with
  | arrive publish => exact (add_zero _).trans (balance_arrive s publish)
  | timeouts now expired =>
    exact balance_act ((Outbound.held_timeouts s.outbound now).trans (add_zero _).symm)
  | deliver now expired sent =>
    rw [execOnline, lostOnline]
    by_cases hcredit : s.inflight.hasCredit = true
    · rw [if_pos hcredit]
      rcases hqueue : s.queue with _ | ⟨d, queue⟩
      · rw [deliver, hqueue]
        rfl
      · simp only [if_pos hcredit]
        exact (balance_deliver now expired sent hqueue).trans (add_zero _).symm
    · rw [if_neg hcredit]
      cases s.queue with
      | nil => rfl
      | cons d queue =>
        simp only [if_neg hcredit]
        rfl
  | process now expired sent =>
    exact (balance_processOnline now expired sent).trans (add_zero _).symm
  | puback packetId => exact congrArg (· + 0) (balance_acknowledge packetId _)
  | pubrec packetId now sent =>
    exact balance_act (congrArg (· + 0) (Outbound.held_received s.outbound packetId now sent))
  | pubcomp packetId => exact congrArg (· + 0) (balance_acknowledge packetId _)
  | disconnect => rfl
  | send m => exact (add_zero _).trans (balance_send s m)
  | resume => exact (balance_resume h).trans (add_zero _).symm

theorem flatMap_leadingForwards (channel : List ChannelMessage) :
    channel.flatMap ChannelMessage.messages = (leadingForwards channel).map Delivery.message ++
      (unread channel).flatMap ChannelMessage.messages := by
  rw [unread]
  fun_induction leadingForwards channel with
  | case1 d channel ih => exact congrArg (d.message :: ·) ih
  | case2 channel h => rfl

theorem balance_queue {queue : List Delivery} {loss gain : Multiset ℕ}
    (h : (queue.map Delivery.message : Multiset ℕ) + loss = s.queue.map Delivery.message + gain) :
    { s with queue }.balance + loss = s.balance + gain := by
  have hbalance (queue : List Delivery) : { s with queue }.balance =
      queue.map Delivery.message + (s.waiting + s.inflight.messages + s.settled) := by
    change s.waiting + (0 + (queue.map Delivery.message + s.inflight.messages)) + s.settled = _
    abel
  rw [hbalance, add_right_comm, h, add_right_comm, ← hbalance s.queue]

theorem balance_enqueue (hchannel : s.channel = .session (.forward d) :: channel) :
    { s with channel, queue := Outbound.enqueue s.queueCap s.queue d }.balance +
      Outbound.overflow s.queueCap s.queue d = s.balance := by
  have hqueue := balance_queue (s := { s with channel })
    (Outbound.messages_enqueue s.queueCap s.queue d)
  exact hqueue.trans (balance_take hchannel)

theorem balance_kick (hchannel : s.channel = .kick :: channel) : { s with
      queue := (leadingForwards channel).foldl (Outbound.enqueue s.queueCap) s.queue }.kicked.balance +
      (Outbound.overflows s.queueCap s.queue (leadingForwards channel) +
        (unread channel).flatMap ChannelMessage.messages) = s.balance := by
  have hqueue := balance_queue (s := s)
    (Outbound.messages_foldl_enqueue s.queueCap (leadingForwards channel) s.queue)
  have hkicked := balance_kicked
    { s with queue := (leadingForwards channel).foldl (Outbound.enqueue s.queueCap) s.queue }
  have hwaiting : s.waiting = (leadingForwards channel).map Delivery.message +
      (unread channel).flatMap ChannelMessage.messages := by
    rw [waiting, hchannel, coe_add, ← flatMap_leadingForwards]
    rfl
  rw [← hkicked] at hqueue
  change _ + s.waiting + _ = _ at hqueue
  rw [hwaiting] at hqueue
  refine add_right_cancel (b := Multiset.ofList ((leadingForwards channel).map Delivery.message)) ?_
  rw [← hqueue]
  abel

theorem balance_processOffline (now : ℤ) (expired : OutInflightMessage → Bool) (sent : Bool) :
    s.processOffline.balance + s.lostOffline (.process now expired sent) = s.balance := by
  rw [processOffline, lostOffline]
  rcases hchannel : s.channel with _ | ⟨(d | m) | info | _ | _ | _, channel⟩
  · exact add_zero _
  · exact balance_enqueue hchannel
  · exact balance_take hchannel
  · exact balance_take hchannel
  · exact balance_kick hchannel
  · exact balance_take hchannel
  · exact balance_take hchannel

theorem balance_execOffline (h : s.info = none) (a : Action) :
    (s.execOffline a).balance + s.lostOffline a = s.balance + s.gained a := by
  cases a with
  | process now expired sent =>
    exact (balance_processOffline now expired sent).trans (add_zero _).symm
  | arrive publish => exact (add_zero _).trans (balance_arrive s publish)
  | send m => exact (add_zero _).trans (balance_send s m)
  | resume => exact (balance_resume h).trans (add_zero _).symm
  | _ => rfl

theorem balance_execKicked (h : s.info = none) (a : Action) :
    (s.execKicked a).balance + s.lostKicked a = s.balance + s.gained a := by
  cases a with
  | resume => exact (balance_resume h).trans (add_zero _).symm
  | _ => rfl

theorem balance_exec (s : Takeover) (a : Action) :
    (exec keepsPlace s a).balance + s.lost a = s.balance + s.accepted a := by
  rw [exec, lost, accepted]
  cases hinfo : s.info with
  | some info => rfl
  | none =>
    cases s.phase with
    | online => exact balance_execOnline hinfo a
    | offline => exact balance_execOffline hinfo a
    | kicked => exact balance_execKicked hinfo a

/-! ## The steps that lose nothing -/

def Drained (channel : List ChannelMessage) : Prop := ∀ m ∈ channel, m.messages = []

theorem flatMap_messages_eq_zero_iff :
    (channel.flatMap ChannelMessage.messages : Multiset ℕ) = 0 ↔ Drained channel := by
  rw [coe_eq_zero, List.flatMap_eq_nil_iff]
  rfl

/-- The message is sent, and kept in the window if it has to be acknowledged. -/
def Delivered (inflight : OutInflight) (d : Delivery) (expired sent : Bool) : Prop :=
  expired = false ∧ sent = true ∧
    if Outbound.needsId d.publish then inflight.nextId.1 ≠ none
    else d.publish.qos ≠ .atMostOnce → inflight.Free d.publish.packetId

theorem lostByDeliver_eq_zero_iff {out : Outbound} {expired sent : Bool} :
    out.lostByDeliver d expired sent = 0 ↔ Delivered out.inflight d expired sent := by
  rw [Outbound.lostByDeliver, Delivered]
  by_cases hsent : expired = true ∨ sent = false
  · rw [if_pos hsent]
    refine iff_of_false (singleton_ne_zero _) ?_
    rintro ⟨rfl, rfl, -⟩
    exact absurd hsent (by decide)
  · obtain ⟨hexpired, hsent'⟩ := not_or.1 hsent
    rw [if_neg hsent, ← and_assoc,
      and_iff_right ⟨Bool.eq_false_iff.2 hexpired, Bool.not_eq_false _ ▸ hsent'⟩]
    split_ifs with hneeds hnone
    · exact iff_of_false (singleton_ne_zero _) (not_not.2 hnone)
    · exact iff_of_true rfl hnone
    · exact Outbound.replaced_eq_zero_iff

def HeedsOnline (s : Takeover) : Action → Prop
  | .timeouts now expired => ∀ m ∈ s.inflight.timedOut now, ¬ Outbound.Abandoned expired m
  | .deliver _ expired sent =>
    s.inflight.hasCredit = true → ∀ d ∈ s.queue.head?, Delivered s.inflight d expired sent
  | .process _ expired _ =>
    match s.channel with
    | .session (.forward _) :: _ => s.queue.length < s.queueCap
    | .session (.sendRerelease m) :: _ => s.inflight.Free m.delivery.publish.packetId
    | .sessionStateTransfer info :: _ =>
      ∀ m ∈ info.inflightMessages, ¬ Outbound.Abandoned expired m
    | .kick :: channel => Drained channel
    | _ => True
  | .resume => Drained s.channel
  | _ => True

def HeedsOffline (s : Takeover) : Action → Prop
  | .process .. =>
    match s.channel with
    | [] => True
    | .session (.forward _) :: _ => s.queue.length < s.queueCap
    | .kick :: channel =>
      (leadingForwards channel = [] ∨
        s.queue.length + (leadingForwards channel).length ≤ s.queueCap) ∧ Drained (unread channel)
    | m :: _ => m.messages = []
  | .resume => Drained s.channel
  | _ => True

def HeedsKicked (s : Takeover) : Action → Prop
  | .arrive _ => False
  | .send m => m.messages = []
  | .resume => Drained s.channel
  | _ => True

/-- The step loses nothing. -/
def Heeds (s : Takeover) (a : Action) : Prop :=
  match s.info, s.phase with
  | some _, _ => True
  | none, .online => s.HeedsOnline a
  | none, .offline => s.HeedsOffline a
  | none, .kicked => s.HeedsKicked a

theorem lostOnline_eq_zero_iff : s.lostOnline a = 0 ↔ s.HeedsOnline a := by
  cases a with
  | timeouts now expired => exact Outbound.abandoned_eq_zero_iff
  | deliver now expired sent =>
    rw [lostOnline, HeedsOnline]
    cases s.queue with
    | nil => exact iff_of_true rfl fun _ _ h => nomatch h
    | cons d queue =>
      by_cases hcredit : s.inflight.hasCredit = true
      · simp only [if_pos hcredit, lostByDeliver_eq_zero_iff]
        exact ⟨fun h _ d' hd' => Option.some.inj hd' ▸ h, fun h => h hcredit d rfl⟩
      · simp only [if_neg hcredit, true_iff]
        exact fun h => absurd h hcredit
  | process now expired sent =>
    rw [lostOnline, HeedsOnline]
    rcases s.channel with _ | ⟨(d | m) | info | _ | _ | _, channel⟩
    · exact iff_of_true rfl trivial
    · exact Outbound.overflow_eq_zero_iff
    · exact Outbound.lostByProcess_sendRerelease_eq_zero_iff
    · exact Outbound.abandoned_eq_zero_iff
    · exact flatMap_messages_eq_zero_iff
    · exact iff_of_true rfl trivial
    · exact iff_of_true rfl trivial
  | resume => exact flatMap_messages_eq_zero_iff
  | _ => exact iff_of_true rfl trivial

theorem lostOffline_eq_zero_iff : s.lostOffline a = 0 ↔ s.HeedsOffline a := by
  cases a with
  | process now expired sent =>
    rw [lostOffline, HeedsOffline]
    rcases s.channel with _ | ⟨(d | m) | info | _ | _ | _, channel⟩
    · exact iff_of_true rfl trivial
    · exact Outbound.overflow_eq_zero_iff
    · exact coe_eq_zero _
    · exact coe_eq_zero _
    · exact add_eq_zero.trans
        (and_congr Outbound.overflows_eq_zero_iff flatMap_messages_eq_zero_iff)
    · exact coe_eq_zero _
    · exact coe_eq_zero _
  | resume => exact flatMap_messages_eq_zero_iff
  | _ => exact iff_of_true rfl trivial

theorem lostKicked_eq_zero_iff : s.lostKicked a = 0 ↔ s.HeedsKicked a := by
  cases a with
  | arrive publish => exact iff_of_false (singleton_ne_zero _) not_false
  | send m => exact coe_eq_zero _
  | resume => exact flatMap_messages_eq_zero_iff
  | _ => exact iff_of_true rfl trivial

theorem lost_eq_zero_iff : s.lost a = 0 ↔ s.Heeds a := by
  rw [lost, Heeds]
  cases s.info with
  | some info => exact iff_of_true rfl trivial
  | none =>
    cases s.phase with
    | online => exact lostOnline_eq_zero_iff
    | offline => exact lostOffline_eq_zero_iff
    | kicked => exact lostKicked_eq_zero_iff

instance (s : Takeover) (a : Action) : Decidable (s.Heeds a) :=
  decidable_of_iff (s.lost a = 0) lost_eq_zero_iff

/-! ## Nothing is lost -/

theorem info_processOnline (s : Takeover) (now : ℤ) (expired : OutInflightMessage → Bool)
    (sent : Bool) : (s.processOnline keepsPlace now expired sent).info = s.info := by
  rw [processOnline]
  rcases s.channel with _ | ⟨m | info | _ | _ | _, channel⟩ <;> rfl

theorem info_processOffline (s : Takeover) : s.processOffline.info = s.info := by
  rw [processOffline]
  rcases s.channel with _ | ⟨(d | m) | info | _ | _ | _, channel⟩ <;> rfl

theorem info_deliver (s : Takeover) (now : ℤ) (expired sent : Bool) :
    (s.deliver keepsPlace now expired sent).info = s.info := by
  rw [deliver]
  cases s.queue <;> rfl

theorem info_exec (h : s.info = none) (a : Action) :
    (exec keepsPlace s a).info = none ∨ exec keepsPlace s a = s.resume := by
  rw [exec, h]
  cases s.phase with
  | online =>
    cases a with
    | deliver now expired sent =>
      dsimp only [execOnline]
      split_ifs
      · exact Or.inl ((info_deliver s now expired sent).trans h)
      · exact Or.inl h
    | process now expired sent => exact Or.inl ((info_processOnline s now expired sent).trans h)
    | resume => exact Or.inr rfl
    | _ => exact Or.inl h
  | offline =>
    cases a with
    | process now expired sent => exact Or.inl ((info_processOffline s).trans h)
    | resume => exact Or.inr rfl
    | _ => exact Or.inl h
  | kicked =>
    cases a with
    | resume => exact Or.inr rfl
    | _ => exact Or.inl h

/-- When the session is handed over, nothing is left of it. -/
def Complete (s : Takeover) : Prop := s.info = none ∨ s.balance = s.settled

theorem Complete.exec (h : Complete s) (a : Action) : Complete (exec keepsPlace s a) := by
  cases hinfo : s.info with
  | some info =>
    have hsame : Takeover.exec keepsPlace s a = s := by rw [Takeover.exec, hinfo]
    rwa [hsame]
  | none =>
    rcases info_exec hinfo a with hnone | hresume
    · exact Or.inl hnone
    · rw [hresume]
      exact Or.inr (zero_add _)

theorem complete_run (h : s.info = none) (actions : List Action) :
    Complete (run keepsPlace s actions) :=
  @foldl_invariant _ _ (exec keepsPlace) Complete s (fun _ a hs => hs.exec a) (Or.inl h) actions

/-- Every message is part of what is handed over, or was acknowledged, exactly if no step loses one. -/
theorem handedOver_iff (keepsPlace : Bool) (s : Takeover) (actions : List Action) (info : OfflineInfo)
    (hs : s.info = none) (hinfo : (run keepsPlace s actions).info = some info) :
    s.balance + total (exec keepsPlace) accepted s actions ≤
        (run keepsPlace s actions).acknowledged + info.messages ↔
      Along (exec keepsPlace) Heeds s actions := by
  have htotal := balance_total (@balance_exec keepsPlace) s actions
  have hend : (actions.foldl (exec keepsPlace) s).balance =
      (run keepsPlace s actions).acknowledged + info.messages := by
    refine ((complete_run hs actions).resolve_left fun h => ?_).trans ?_
    · exact nomatch hinfo.symm.trans h
    · rw [settled, hinfo]
      rfl
  rw [← htotal, hend, add_le_iff_nonpos_right, nonpos_iff_eq_zero, total_eq_zero_iff]
  simp only [lost_eq_zero_iff]

/-- A message waits for its PUBACK and two others are in the channel, one of them behind the `Kick`,
when the connection is lost and another one resumes the session. -/
theorem handedOver_behind_kick :
    (start 16 20 0 1000 []).balance + total (exec true) accepted (start 16 20 0 1000 []) [
        .arrive ⟨false, false, .atLeastOnce, "t", none, [], none⟩, .process 0 (fun _ => false) true,
        .deliver 0 false true, .disconnect, .send .other,
        .arrive ⟨false, false, .atLeastOnce, "t", none, [], none⟩, .send .kick,
        .arrive ⟨false, false, .atLeastOnce, "t", none, [], none⟩, .send .other,
        .process 1 (fun _ => false) true, .process 1 (fun _ => false) true,
        .process 1 (fun _ => false) true, .resume] ≤ {0, 1, 2} :=
  ((handedOver_iff true (start 16 20 0 1000 []) _ _ rfl rfl).2 (by decide +kernel)).trans
    (by decide +kernel)

/-- A message behind the `Kick` is lost if the session is connected, and otherwise if there is another
message between them. -/
theorem lost_behind_kick :
    let message := ChannelMessage.session
      (.forward ⟨0, ⟨false, false, .atLeastOnce, "t", none, [], none⟩⟩)
    let online := start 16 20 0 1000 [.kick, message]
    let offline := { start 16 20 0 1000 [.kick, .other, message] with phase := .offline }
    online.balance = {0} ∧
      (run true online [.process 0 (fun _ => false) true, .resume]).settled = 0 ∧
      offline.balance = {0} ∧
      (run true offline [.process 0 (fun _ => false) true, .resume]).settled = 0 :=
  ⟨rfl, rfl, rfl, rfl⟩

end Takeover

end FerroMq
