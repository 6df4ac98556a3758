import FerroMq.Session.Takeover

/-!
# The order in which a resumed session sends

The messages that are carried over go through queues that keep the order, but the messages in flight are taken
from the end of their list (`comparable_run`): the order is kept exactly if at most one of them is a PUBLISH.
-/

namespace FerroMq

open Lib Codec List

/-! ## What is carried over -/

namespace OfflineInfo

def publishes (info : OfflineInfo) : List ℕ :=
  (info.inflightMessages.filter fun m => m.status ≠ .unComplete).map fun m => m.delivery.message

def inOrder (info : OfflineInfo) : List ℕ :=
  info.publishes ++ info.offlineMessages.map Delivery.message

/-- The order in which they are sent. -/
def resent (info : OfflineInfo) : List ℕ :=
  info.publishes.reverse ++ info.offlineMessages.map Delivery.message

theorem resent_eq_inOrder {info : OfflineInfo} (h : info.publishes.length ≤ 1) :
    info.resent = info.inOrder := by
  rw [resent, inOrder]
  match hp : info.publishes, h with
  | [], _ => rfl
  | [m], _ => rfl

end OfflineInfo

def SessionMessage.forwarded : SessionMessage → List ℕ
  | .forward d => [d.message]
  | .sendRerelease _ => []

def ChannelMessage.forwarded : ChannelMessage → List ℕ
  | .session m => m.forwarded
  | .sessionStateTransfer info => info.resent
  | .kick | .closed | .other => []

namespace Outbound

variable {expired : OutInflightMessage → Bool}

def resend (expired : OutInflightMessage → Bool) (m : OutInflightMessage) : List SessionMessage :=
  match m.status with
  | .unAck | .unReceived =>
    [.forward { m.delivery with publish := { m.delivery.publish with dup := true } }]
  | .unComplete => if expired m then [] else [.sendRerelease m]

theorem reforward_eq (s : Outbound) (m : OutInflightMessage) :
    reforward expired s m = { s with rx := s.rx ++ resend expired m } := by
  rw [reforward, resend]
  cases m.status with
  | unAck | unReceived => rfl
  | unComplete =>
    dsimp only
    split_ifs
    · rw [append_nil]
    · rfl

theorem foldl_reforward_eq (l : List OutInflightMessage) (s : Outbound) :
    l.foldl (reforward expired) s = { s with rx := s.rx ++ l.flatMap (resend expired) } := by
  induction l generalizing s with
  | nil => rw [flatMap_nil, append_nil, foldl_nil]
  | cons m l ih => rw [foldl_cons, ih, reforward_eq, flatMap_cons, append_assoc]

theorem foldl_forward_eq (l : List Delivery) (s : Outbound) :
    l.foldl forward s = { s with rx := s.rx ++ l.map .forward } := by
  induction l generalizing s with
  | nil => rw [map_nil, append_nil, foldl_nil]
  | cons d l ih =>
    rw [foldl_cons, ih, forward, map_cons, append_assoc]
    rfl

theorem timeoutLoop_eq (now : ℤ) (n : ℕ) (s : Outbound) :
    ∃ inflight l, timeoutLoop now expired n s = { s with inflight, rx := s.rx ++ l } := by
  induction n generalizing s with
  | zero => exact ⟨s.inflight, [], by rw [append_nil]; rfl⟩
  | succ n ih =>
    rw [timeoutLoop]
    rcases s.inflight.popFrontTimeout now with _ | ⟨m, inflight⟩
    · exact ⟨s.inflight, [], by rw [append_nil]⟩
    · obtain ⟨inflight', l, h⟩ := ih (reforward expired { s with inflight } m)
      exact ⟨inflight', resend expired m ++ l, h.trans (by rw [reforward_eq, append_assoc])⟩

def transferred (expired : OutInflightMessage → Bool) (info : OfflineInfo) : List SessionMessage :=
  info.inflightMessages.reverse.flatMap (resend expired) ++ info.offlineMessages.map .forward

theorem transferSessionState_eq (s : Outbound) (info : OfflineInfo) :
    ∃ next, s.transferSessionState expired info =
      { s with inflight := { s.inflight with next }, rx := s.rx ++ transferred expired info } := by
  unfold transferSessionState
  cases maxTransferId info.inflightMessages with
  | none =>
    refine ⟨s.inflight.next, ?_⟩
    simp only [foldl_reforward_eq, foldl_forward_eq, transferred, append_assoc]
  | some maxId =>
    refine ⟨(s.inflight.advanceNextId maxId).next, ?_⟩
    simp only [foldl_reforward_eq, foldl_forward_eq, transferred, append_assoc]
    rfl

theorem forwarded_resend (m : OutInflightMessage) :
    (resend expired m).flatMap SessionMessage.forwarded =
      if m.status ≠ .unComplete then [m.delivery.message] else [] := by
  rw [resend]
  cases m.status with
  | unAck | unReceived => rfl
  | unComplete =>
    dsimp only
    split_ifs <;> trivial

theorem forwarded_transferred (info : OfflineInfo) :
    (transferred expired info).flatMap SessionMessage.forwarded = info.resent := by
  have hinflight (l : List OutInflightMessage) :
      (l.flatMap (resend expired)).flatMap SessionMessage.forwarded =
        (l.filter fun m => m.status ≠ .unComplete).map fun m => m.delivery.message := by
    induction l with
    | nil => rfl
    | cons m l ih =>
      rw [flatMap_cons, flatMap_append, forwarded_resend, ih, filter_cons]
      split_ifs with hpublish <;> simp_all
  have hoffline (l : List Delivery) : (l.map SessionMessage.forward).flatMap SessionMessage.forwarded =
      l.map Delivery.message := by
    rw [flatMap_map]
    exact map_eq_flatMap.symm
  rw [transferred, flatMap_append, hinflight, hoffline, filter_reverse, map_reverse]
  rfl

theorem processMessage_forwarded (s : Outbound) (keepsPlace : Bool) (m : SessionMessage) (now : ℤ)
    (sent : Bool) (hroom : ∀ d, m = .forward d → s.queue.length < s.queueCap) :
    ({ s with rx := [m] }.processMessage keepsPlace now sent).rx = [] ∧
      ({ s with rx := [m] }.processMessage keepsPlace now sent).queue.map Delivery.message =
        s.queue.map Delivery.message ++ m.forwarded := by
  cases m with
  | forward d =>
    refine ⟨rfl, ?_⟩
    dsimp only [processMessage, enqueue]
    rw [if_pos (hroom d rfl), map_append]
    rfl
  | sendRerelease m =>
    rw [SessionMessage.forwarded, append_nil]
    dsimp only [processMessage, sendRerelease]
    cases m.delivery.publish.packetId with
    | none => exact ⟨rfl, rfl⟩
    | some packetId => cases sent <;> exact ⟨rfl, rfl⟩

theorem deliver_eq {s : Outbound} (keepsPlace : Bool) {d : Delivery} {queue : List Delivery}
    (hqueue : s.queue = d :: queue) (now : ℤ) (expired sent : Bool) :
    (s.deliver keepsPlace now expired sent).queue = queue ∧
      (s.deliver keepsPlace now expired sent).rx = s.rx := by
  have hsend (s' : Outbound) (d' : Delivery) :
      (sendPublish keepsPlace s' d' now sent).queue = s'.queue ∧
        (sendPublish keepsPlace s' d' now sent).rx = s'.rx := by
    rw [sendPublish]
    split_ifs <;> exact ⟨rfl, rfl⟩
  rw [deliver, hqueue]
  dsimp only
  split_ifs
  · exact ⟨rfl, rfl⟩
  · rcases s.inflight.nextId with ⟨_ | packetId, inflight⟩
    · exact ⟨rfl, rfl⟩
    · exact hsend _ _
  · exact hsend _ _

end Outbound

namespace Takeover

variable {keepsPlace : Bool} {s : Takeover} {info : OfflineInfo}

/-! ## The line of messages -/

/-- The messages in the order in which it is their turn. -/
def line (s : Takeover) : List ℕ :=
  s.served ++ (s.queue.map Delivery.message ++ s.channel.flatMap ChannelMessage.forwarded)

theorem forwarded_map_session (l : List SessionMessage) :
    (l.map ChannelMessage.session).flatMap ChannelMessage.forwarded =
      l.flatMap SessionMessage.forwarded :=
  flatMap_map _ _ _

theorem line_act (s : Takeover) (f : Outbound → Outbound) :
    (s.act f).line = s.served ++ ((f s.outbound).queue.map Delivery.message ++
      (s.channel.flatMap ChannelMessage.forwarded ++
        (f s.outbound).rx.flatMap SessionMessage.forwarded)) := by
  have hchannel : (s.act f).channel = s.channel ++ (f s.outbound).rx.map .session := rfl
  rw [line, hchannel, flatMap_append, forwarded_map_session]
  rfl

theorem line_isPrefix_act {f : Outbound → Outbound} (h : (f s.outbound).queue = s.queue) :
    s.line <+: (s.act f).line := by
  rw [line_act, h, ← append_assoc (s.queue.map _), ← append_assoc]
  exact prefix_append _ _

/-- Neither a message for the client nor the state of a session. -/
def Plain : ChannelMessage → Prop
  | .kick | .closed | .other => True
  | .session _ | .sessionStateTransfer _ => False

/-- Nobody publishes, and the queue is not full. -/
def Quiet (s : Takeover) : Action → Prop
  | .arrive _ => False
  | .send m => Plain m
  | .process .. => leadingForwards s.channel ≠ [] → s.queue.length < s.queueCap
  | _ => True

instance : DecidablePred Plain
  | .kick | .closed | .other => isTrue trivial
  | .session _ | .sessionStateTransfer _ => isFalse not_false

instance (s : Takeover) : DecidablePred s.Quiet
  | .arrive _ => isFalse not_false
  | .send m => inferInstanceAs (Decidable (Plain m))
  | .process .. =>
    inferInstanceAs (Decidable (leadingForwards s.channel ≠ [] → s.queue.length < s.queueCap))
  | .timeouts .. | .deliver .. | .puback _ | .pubrec .. | .pubcomp _ | .disconnect | .resume =>
    isTrue trivial

def Comparable (l l' : List ℕ) : Prop := l <+: l' ∨ l' <+: l

/-- How far the new session has got with what was carried over. -/
inductive Resuming (info : OfflineInfo) (s : Takeover) : Prop
  /-- The state of the old session is the first message of the channel. -/
  | waiting (post : List ChannelMessage)
      (channel : s.channel = .sessionStateTransfer info :: post) (plain : ∀ m ∈ post, Plain m)
      (queue : s.queue = []) (served : s.served = []) (window : s.inflight.queues.entries = [])
  | begun (line : info.resent <+: s.line)
      (once : ∀ info', .sessionStateTransfer info' ∉ s.channel)
  /-- Nothing is sent any more. -/
  | ended (stopped : s.info = none → s.phase ≠ .online) (comparable : Comparable s.served info.resent)

theorem Resuming.served_comparable (h : Resuming info s) : Comparable s.served info.resent := by
  cases h with
  | waiting post _ _ _ served _ =>
    rw [served]
    exact Or.inl nil_prefix
  | begun line _ => exact prefix_or_prefix_of_prefix (prefix_append _ _) line
  | ended _ comparable => exact comparable

theorem Resuming.stop {s' : Takeover} (h : Resuming info s) (hserved : s'.served = s.served)
    (hstopped : s'.info = none → s'.phase ≠ .online) : Resuming info s' :=
  .ended hstopped (hserved ▸ h.served_comparable)

/-! ## The steps -/

theorem Resuming.execOffline (h : Resuming info s) (hphase : s.phase = .offline) (a : Action)
    (hquiet : s.Quiet a) : Resuming info (s.execOffline a) := by
  have hstopped : s.info = none → s.phase ≠ .online := fun _ => by
    rw [hphase]
    decide
  cases a with
  | arrive publish => exact hquiet.elim
  | process now expired sent =>
    have hprocess : s.processOffline.served = s.served ∧ s.processOffline.phase ≠ .online := by
      rw [processOffline]
      rcases s.channel with _ | ⟨(d | m) | info | _ | _ | _, channel⟩ <;>
        simp [kicked, hphase]
    exact h.stop hprocess.1 fun _ => hprocess.2
  | resume => exact h.stop rfl fun hinfo => nomatch hinfo
  | _ => exact h.stop rfl hstopped

theorem Resuming.execKicked (h : Resuming info s) (hphase : s.phase = .kicked) (a : Action) :
    Resuming info (s.execKicked a) := by
  have hstopped : s.info = none → s.phase ≠ .online := fun _ => by
    rw [hphase]
    decide
  cases a with
  | resume => exact h.stop rfl fun hinfo => nomatch hinfo
  | _ => exact h.stop rfl hstopped

theorem Resuming.act (h : Resuming info s) {f : Outbound → Outbound}
    (hqueue : (f s.outbound).queue = s.queue)
    (hidle : s.inflight.queues.entries = [] →
      (f s.outbound).inflight.queues.entries = [] ∧ (f s.outbound).rx = [])
    : Resuming info (s.act f) := by
  cases h with
  | waiting post channel plain queue served window =>
    obtain ⟨hwindow, hrx⟩ := hidle window
    refine .waiting post ?_ plain (hqueue.trans queue) served hwindow
    rw [Takeover.act, hrx, channel]
    exact append_nil _
  | begun line once =>
    refine .begun ?_ fun info' hmem => ?_
    · exact line.trans (line_isPrefix_act hqueue)
    · rcases mem_append.1 hmem with hmem | hmem
      · exact once info' hmem
      · obtain ⟨m, -, hm⟩ := mem_map.1 hmem
        exact nomatch hm
  | ended stopped comparable =>
    refine .ended (fun hinfo => ?_) comparable
    have hphase := stopped hinfo
    rw [Takeover.act]
    dsimp only
    split_ifs
    · exact hphase
    · decide

theorem Resuming.deliver (h : Resuming info s) (hphase : s.phase = .online) (hinfo : s.info = none)
    (now : ℤ) (expired sent : Bool) : Resuming info (s.deliver keepsPlace now expired sent) := by
  rcases hqueue : s.queue with _ | ⟨d, queue⟩
  · rw [Takeover.deliver, hqueue]
    exact h
  cases h with
  | waiting post channel plain empty served window => exact nomatch hqueue.symm.trans empty
  | begun line once =>
    obtain ⟨hqueue', hrx⟩ := Outbound.deliver_eq (s := s.outbound) keepsPlace hqueue now expired sent
    have hchannel : (s.deliver keepsPlace now expired sent).channel = s.channel := by
      rw [Takeover.deliver, hqueue]
      dsimp only [Takeover.act]
      rw [hrx]
      exact append_nil _
    refine .begun ?_ (hchannel ▸ once)
    have hline : (s.deliver keepsPlace now expired sent).line = s.line := by
      rw [Takeover.line, hchannel, Takeover.deliver, hqueue]
      dsimp only [Takeover.act]
      rw [hqueue', Takeover.line, hqueue, append_assoc]
      rfl
    rwa [hline]
  | ended stopped comparable => exact absurd hphase (stopped hinfo)

theorem Resuming.transfer {post : List ChannelMessage} (plain : ∀ m ∈ post, Plain m)
    (queue : s.queue = []) (served : s.served = []) (expired : OutInflightMessage → Bool) :
    Resuming info ({ s with channel := post }.act fun out => out.transferSessionState expired info) := by
  obtain ⟨next, htransfer⟩ :=
    @Outbound.transferSessionState_eq expired { s with channel := post }.outbound info
  have hpost : post.flatMap ChannelMessage.forwarded = [] := by
    rw [flatMap_eq_nil_iff]
    intro m hm
    cases m with
    | session m | sessionStateTransfer info' => exact (plain _ hm).elim
    | _ => rfl
  refine .begun ?_ fun info' hmem => ?_
  · rw [line_act, htransfer]
    dsimp only [outbound]
    rw [queue, served, hpost, nil_append (Outbound.transferred _ _),
      Outbound.forwarded_transferred]
    exact prefix_rfl
  · rcases mem_append.1 hmem with hmem | hmem
    · exact plain _ hmem
    · obtain ⟨m, -, hm⟩ := mem_map.1 hmem
      exact nomatch hm

theorem Resuming.processMessage (line : info.resent <+: s.line)
    (once : ∀ info', .sessionStateTransfer info' ∉ s.channel) {m : SessionMessage}
    {channel : List ChannelMessage} (hchannel : s.channel = .session m :: channel) (now : ℤ) (sent : Bool)
    (hroom : ∀ d, m = .forward d → s.queue.length < s.queueCap) :
    Resuming info ({ s with channel }.act fun out =>
      { out with rx := [m] }.processMessage keepsPlace now sent) := by
  obtain ⟨hrx, hqueue⟩ := s.outbound.processMessage_forwarded keepsPlace m now sent hroom
  refine .begun ?_ fun info' hmem => ?_
  · rw [line_act]
    dsimp only [outbound] at hrx hqueue ⊢
    rw [hrx, hqueue, flatMap_nil, append_nil, append_assoc]
    rwa [Takeover.line, hchannel, flatMap_cons] at line
  · rcases mem_append.1 hmem with hmem | hmem
    · exact once info' (hchannel ▸ mem_cons_of_mem _ hmem)
    · obtain ⟨m, -, hm⟩ := mem_map.1 hmem
      exact nomatch hm

theorem Resuming.skip (line : info.resent <+: s.line)
    (once : ∀ info', .sessionStateTransfer info' ∉ s.channel) {m : ChannelMessage}
    {channel : List ChannelMessage} (hchannel : s.channel = m :: channel) (hm : m.forwarded = [])
    (phase : LoopPhase) : Resuming info { s with channel, phase } := by
  refine .begun ?_ fun info' hmem => once info' (hchannel ▸ mem_cons_of_mem _ hmem)
  rw [Takeover.line, hchannel, flatMap_cons, hm] at line
  exact line

theorem Resuming.processOnline (h : Resuming info s) (hphase : s.phase = .online)
    (hinfo : s.info = none) (now : ℤ) (expired : OutInflightMessage → Bool) (sent : Bool)
    (hquiet : s.Quiet (.process now expired sent)) :
    Resuming info (s.processOnline keepsPlace now expired sent) := by
  have h' := h
  cases h' with
  | waiting post channel plain queue served window =>
    rw [Takeover.processOnline, channel]
    exact .transfer plain queue served expired
  | begun line once =>
    rw [Takeover.processOnline]
    rw [Quiet] at hquiet
    rcases hchannel : s.channel with _ | ⟨m | info' | _ | _ | _, channel⟩
    · exact h
    · refine .processMessage line once hchannel now sent fun d hd => ?_
      rw [hchannel, hd] at hquiet
      exact hquiet (cons_ne_nil _ _)
    · exact absurd mem_cons_self (hchannel ▸ once info')
    · exact h.stop rfl fun _ hkicked => nomatch hkicked
    · exact .skip line once hchannel rfl .offline
    · exact .skip line once hchannel rfl s.phase
  | ended stopped comparable => exact absurd hphase (stopped hinfo)

theorem Resuming.acknowledge (h : Resuming info s) (packetId : PacketId) (e : DeliveryEvent)
    (acknowledged : List ℕ) :
    Resuming info { s.act fun out => out.acknowledged packetId e with acknowledged } := by
  have hact : Resuming info (s.act fun out => out.acknowledged packetId e) := by
    refine h.act rfl fun hwindow => ⟨?_, rfl⟩
    change s.inflight.queues.entries.filter _ = []
    rw [hwindow, filter_nil]
  cases hact with
  | waiting post channel plain queue served window =>
    exact .waiting post channel plain queue served window
  | begun line once => exact .begun line once
  | ended stopped comparable => exact .ended stopped comparable

theorem Resuming.send (h : Resuming info s) (hphase : s.phase = .online) (hinfo : s.info = none)
    {m : ChannelMessage} (hm : Plain m) : Resuming info { s with channel := s.channel ++ [m] } := by
  cases h with
  | waiting post channel plain queue served window =>
    refine .waiting (post ++ [m]) (by rw [channel]; rfl) (fun m' hm' => ?_) queue served window
    rcases mem_append.1 hm' with hm' | hm'
    · exact plain m' hm'
    · rwa [mem_singleton.1 hm']
  | begun line once =>
    refine .begun (line.trans ?_) fun info' hmem => ?_
    · rw [Takeover.line, Takeover.line, flatMap_append]
      exact (prefix_append_right_inj _).2
        ((prefix_append_right_inj _).2 (prefix_append _ _))
    · rcases mem_append.1 hmem with hmem | hmem
      · exact once info' hmem
      · rw [← mem_singleton.1 hmem] at hm
        exact hm
  | ended stopped comparable => exact absurd hphase (stopped hinfo)

theorem Resuming.execOnline (h : Resuming info s) (hphase : s.phase = .online) (hinfo : s.info = none)
    (a : Action) (hquiet : s.Quiet a) : Resuming info (s.execOnline keepsPlace a) := by
  cases a with
  | arrive publish => exact hquiet.elim
  | timeouts now expired =>
    obtain ⟨inflight, l, htimeouts⟩ :=
      @Outbound.timeoutLoop_eq expired now s.inflight.queues.entries.length s.outbound
    refine h.act (congrArg Outbound.queue htimeouts) fun hwindow => ?_
    dsimp only [Outbound.timeouts, outbound]
    rw [hwindow]
    exact ⟨hwindow, rfl⟩
  | deliver now expired sent =>
    rw [Takeover.execOnline]
    split_ifs
    · exact h.deliver hphase hinfo now expired sent
    · exact h
  | process now expired sent => exact h.processOnline hphase hinfo now expired sent hquiet
  | puback packetId => exact h.acknowledge packetId _ _
  | pubrec packetId now sent =>
    refine Resuming.act (f := fun out => out.received packetId now sent) h ?_ fun hwindow => ?_
    · cases sent <;> rfl
    · have hupdate : (s.inflight.updateStatus packetId .unComplete now).queues.entries = [] := by
        dsimp only [OutInflight.updateStatus, DequeMap.modify]
        rw [hwindow, map_nil]
      cases sent <;> exact ⟨hupdate, rfl⟩
  | pubcomp packetId => exact h.acknowledge packetId _ _
  | disconnect => exact h.stop rfl fun _ hoffline => nomatch hoffline
  | send m => exact h.send hphase hinfo hquiet
  | resume => exact h.stop rfl fun hinfo => nomatch hinfo

theorem Resuming.exec (h : Resuming info s) (a : Action) (hquiet : s.Quiet a) :
    Resuming info (exec keepsPlace s a) := by
  rw [Takeover.exec]
  cases hinfo : s.info with
  | some _ => exact h
  | none =>
    cases hphase : s.phase with
    | online => exact h.execOnline hphase hinfo a hquiet
    | offline => exact h.execOffline hphase a hquiet
    | kicked => exact h.execKicked hphase a

/-! ## The order -/

theorem eq_of_comparable {a b : ℕ} {l : List ℕ} (h : Comparable [a] (b :: l)) : a = b := by
  rcases h with h | h
  · exact (cons_prefix_cons.1 h).1
  · exact (cons_prefix_cons.1 h).1.symm

/-- If the messages that wait for their PUBCOMP have expired, only PUBLISHes are sent again. -/
theorem exists_transferred (h : info.publishes ≠ []) :
    ∃ d rest, Outbound.transferred (fun _ => true) info = .forward d :: rest := by
  have hforward : ∀ m ∈ Outbound.transferred (fun _ => true) info, ∃ d, m = .forward d := by
    intro m hm
    rcases mem_append.1 hm with hm | hm
    · obtain ⟨m', -, hm'⟩ := mem_flatMap.1 hm
      rw [Outbound.resend] at hm'
      cases hstatus : m'.status with
      | unComplete =>
        rw [hstatus] at hm'
        exact nomatch hm'
      | _ =>
        rw [hstatus] at hm'
        exact ⟨_, mem_singleton.1 hm'⟩
    · obtain ⟨d, -, hd⟩ := mem_map.1 hm
      exact ⟨d, hd.symm⟩
  have hresent := @Outbound.forwarded_transferred (fun _ => true) info
  rcases htransferred : Outbound.transferred (fun _ => true) info with _ | ⟨m, rest⟩
  · rw [htransferred] at hresent
    have hnil : info.publishes.reverse = [] := (append_eq_nil_iff.1 hresent.symm).1
    exact absurd (reverse_eq_nil_iff.1 hnil) h
  · obtain ⟨d, rfl⟩ := hforward m (htransferred ▸ mem_cons_self)
    exact ⟨d, rest, rfl⟩

section Run

variable {cap : UInt64} {retryInterval expiryInterval : ℤ} {queueCap : ℕ}
  (hstart : s = start cap retryInterval expiryInterval queueCap [.sessionStateTransfer info])

include hstart

/-- A session to which nobody publishes sends what was carried over in the order of `resent`. -/
theorem comparable_run {actions : List Action} (h : Along (Takeover.exec keepsPlace) Quiet s actions) :
    Comparable (run keepsPlace s actions).served info.resent := by
  subst hstart
  have hrun := h.invariant (fun _ a ha (hs : Resuming info _) => hs.exec a ha)
    (.waiting [] rfl (fun _ hm => nomatch hm) rfl rfl rfl)
  exact hrun.served_comparable

theorem exists_served (hcap : cap ≠ 0) (hqueueCap : queueCap ≠ 0) (h : info.publishes ≠ []) :
    ∃ actions m, Along (Takeover.exec keepsPlace) Quiet s actions ∧
      (run keepsPlace s actions).served = [m] := by
  obtain ⟨d, rest, htransferred⟩ := exists_transferred h
  obtain ⟨next, htransfer⟩ := @Outbound.transferSessionState_eq (fun _ => true)
    (start cap retryInterval expiryInterval queueCap []).outbound info
  rw [htransferred] at htransfer
  let inflight : OutInflight := { OutInflight.new cap retryInterval expiryInterval with next }
  -- the state after the transfer, and after the first message has reached the queue
  let s₁ : Takeover := ⟨inflight, [], queueCap, 0, .session (.forward d) :: rest.map .session, .online,
    [], [], none⟩
  let s₂ : Takeover := ⟨inflight, [d], queueCap, 0, rest.map .session ++ [], .online, [], [], none⟩
  have hfirst : exec keepsPlace s (.process 0 (fun _ => true) true) = s₁ := by
    have hact : exec keepsPlace s (.process 0 (fun _ => true) true) =
        (start cap retryInterval expiryInterval queueCap []).act fun out =>
          out.transferSessionState (fun _ => true) info := by
      rw [hstart]
      rfl
    rw [hact, act, htransfer]
    rfl
  have hroom : ([] : List Delivery).length < queueCap := Nat.pos_of_ne_zero hqueueCap
  have hsecond : exec keepsPlace s₁ (.process 0 (fun _ => true) true) = s₂ := by
    have hqueue : Outbound.enqueue queueCap [] d = [d] := if_pos hroom
    have hexec : exec keepsPlace s₁ (.process 0 (fun _ => true) true) =
        { s₂ with queue := Outbound.enqueue queueCap [] d } := rfl
    rw [hexec, hqueue]
  have hcredit : inflight.hasCredit = true := by
    refine decide_eq_true ?_
    change cap - 0 > 0
    rw [UInt64.sub_zero]
    exact UInt64.pos_iff_ne_zero.2 hcap
  have hthird : (exec keepsPlace s₂ (.deliver 0 false true)).served = [d.message] := by
    have hexec : exec keepsPlace s₂ (.deliver 0 false true) =
        if inflight.hasCredit = true then s₂.deliver keepsPlace 0 false true else s₂ := rfl
    rw [hexec, if_pos hcredit]
    rfl
  refine ⟨[.process 0 (fun _ => true) true, .process 0 (fun _ => true) true, .deliver 0 false true],
    d.message, ⟨?_, ?_, trivial, trivial⟩, ?_⟩
  · rw [hstart]
    exact fun h => absurd rfl h
  · rw [hfirst]
    exact fun _ => hroom
  · rw [run, foldl_cons, hfirst, foldl_cons, hsecond]
    exact hthird

end Run

/-- A resumed session keeps the order exactly if at most one PUBLISH was in flight. -/
theorem resume_inOrder_iff (keepsPlace : Bool) (cap : UInt64) (retryInterval expiryInterval : ℤ)
    (queueCap : ℕ) (old : Takeover) (hcap : cap ≠ 0) (hqueueCap : queueCap ≠ 0)
    (hdistinct : old.toOfflineInfo.inOrder.Nodup) :
    (∀ actions, Along (exec keepsPlace) Quiet (start cap retryInterval expiryInterval queueCap
        [.sessionStateTransfer old.toOfflineInfo]) actions →
      Comparable (run keepsPlace (start cap retryInterval expiryInterval queueCap
        [.sessionStateTransfer old.toOfflineInfo]) actions).served old.toOfflineInfo.inOrder) ↔
      old.toOfflineInfo.publishes.length ≤ 1 := by
  constructor
  · intro h
    by_contra hlen
    obtain ⟨a, b, l, hpublishes⟩ : ∃ a b l, old.toOfflineInfo.publishes = a :: b :: l := by
      rcases hp : old.toOfflineInfo.publishes with _ | ⟨a, _ | ⟨b, l⟩⟩
      · exact absurd (by rw [hp]; decide) hlen
      · exact absurd (by rw [hp]; exact le_rfl) hlen
      · exact ⟨a, b, l, rfl⟩
    obtain ⟨actions, m, hquiet, hserved⟩ := exists_served rfl hcap hqueueCap
      (by rw [hpublishes]; exact cons_ne_nil _ _)
    have hfirst := h actions hquiet
    have hlast := comparable_run rfl hquiet
    rw [hserved] at hfirst hlast
    have hm : m = a := eq_of_comparable (by rwa [OfflineInfo.inOrder, hpublishes] at hfirst)
    have hmem : m ∈ b :: l := by
      rw [OfflineInfo.resent, hpublishes, reverse_cons] at hlast
      rcases hreverse : (b :: l).reverse with _ | ⟨c, l'⟩
      · exact absurd (reverse_eq_nil_iff.1 hreverse) (cons_ne_nil b l)
      · rw [hreverse] at hlast
        rw [eq_of_comparable hlast, ← mem_reverse, hreverse]
        exact mem_cons_self
    rw [OfflineInfo.inOrder, hpublishes] at hdistinct
    exact (nodup_cons.1 (nodup_append.1 hdistinct).1).1 (hm ▸ hmem)
  · intro hlen actions hquiet
    rw [← OfflineInfo.resent_eq_inOrder hlen]
    exact comparable_run rfl hquiet

/-- One message waits for its PUBACK and two are in the queue when the session is resumed. -/
theorem resume_inOrder_one_inflight :
    let publish : Publish := ⟨false, false, .atLeastOnce, "t", none, [], none⟩
    let process : Action := .process 0 (fun _ => false) true
    let old := run true (start 16 20 0 1000 []) [.arrive publish, process, .deliver 0 false true,
      .arrive publish, process, .arrive publish, process]
    Comparable (run true (start 16 20 0 1000 [.sessionStateTransfer old.toOfflineInfo])
      [process, process, process, .deliver 0 false true, process, .deliver 0 false true]).served
      old.toOfflineInfo.inOrder :=
  (resume_inOrder_iff true 16 20 0 1000 _ (by decide) (by decide) (by decide +kernel)).2
    (by decide +kernel) _ (by decide +kernel)

/-- Two messages wait for their PUBACK when the session is resumed. -/
theorem resume_reverses :
    let publish : Publish := ⟨false, false, .atLeastOnce, "t", none, [], none⟩
    let process : Action := .process 0 (fun _ => false) true
    let old := run true (start 16 20 0 1000 []) [.arrive publish, process, .deliver 0 false true,
      .arrive publish, process, .deliver 0 false true]
    old.toOfflineInfo.inOrder = [0, 1] ∧
      (run true (start 16 20 0 1000 [.sessionStateTransfer old.toOfflineInfo])
        [process, process, process, .deliver 0 false true, .deliver 0 false true]).served = [1, 0] :=
  ⟨by decide +kernel, by decide +kernel⟩

end Takeover

end FerroMq
