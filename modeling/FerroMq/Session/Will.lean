import FerroMq.Codec.V3.Packet
import FerroMq.Codec.V5.Packet
import FerroMq.Lib.History

/-!
# The will of a client

A connection that ends without a DISCONNECT makes the broker publish the will: at once, or after its delay, but
not later than the session ends.  The will is lost if the client asks for it with its DISCONNECT, and if the
session ends otherwise while the delay is pending.  `honoured_iff` says in which runs this does not happen.
-/

namespace FerroMq

open Lib Codec

abbrev Duration := ℕ

def Duration.fromSecs (secs : UInt32) : Duration := secs.toNat * 1000

inductive LastWill
  | v3 (lw : V3.LastWill)
  | v5 (lw : V5.LastWill)

inductive ConnectInfo
  | v3 (c : V3.Connect)
  | v5 (c : V5.Connect)

inductive Disconnect
  | v3
  | v5 (d : V5.Disconnect)

def Disconnect.isNormal : Disconnect → Bool
  | v3 => true
  | v5 d => d.reasonCode = .normalDisconnection

namespace LastWill

def willDelayInterval : LastWill → Option Duration
  | v3 _ => none
  | v5 lw => lw.willDelayIntervalSec.map Duration.fromSecs

/-- `Publish::try_from`.  The query of a topic of version 3 is read by `parse`, the one of
`form_urlencoded`. -/
def toPublish (parse : List Char → UserProperties) : LastWill → Publish
  | v3 lw =>
    let userProperties := match lw.topic.toList.dropWhile (· ≠ '?') with
      | [] => []
      | _ :: query => parse query
    { dup := false
      retain := lw.retain
      qos := lw.qos
      topic := lw.topic
      packetId := none
      payload := lw.message
      properties := some { userProperties } }
  | v5 lw =>
    { dup := false
      retain := lw.retain
      qos := lw.qos
      topic := lw.topic
      packetId := none
      payload := lw.message
      properties := some
        { correlationData := lw.correlationData
          messageExpiryInterval := lw.messageExpiryInterval
          contentType := lw.contentType
          userProperties := lw.userProperties
          isUtf8Payload := lw.isUtf8Payload.getD false
          responseTopic := lw.responseTopic } }

end LastWill

def ConnectInfo.lastWill : ConnectInfo → Option LastWill
  | v3 c => c.lastWill.map .v3
  | v5 c => c.lastWill.map .v5

/-- The client, and the intervals of its listener. -/
structure DefaultFitter where
  connInfo : ConnectInfo
  listenSessionExpiryInterval : Duration
  listenMaxSessionExpiryInterval : Duration

namespace DefaultFitter

def expiryInterval (self : DefaultFitter) : Duration :=
  match self.connInfo with
  | .v5 c => .fromSecs c.sessionExpiryIntervalSecs
  | .v3 _ => self.listenSessionExpiryInterval

def sessionExpiryInterval (self : DefaultFitter) (d : Option Disconnect) : Duration :=
  let interval := match d with
    | some (.v5 d) =>
      match d.sessionExpiryIntervalSecs with
      | some secs => .fromSecs secs
      | none => self.expiryInterval
    | _ => self.expiryInterval
  if self.listenMaxSessionExpiryInterval = 0 then interval
  else min interval self.listenMaxSessionExpiryInterval

def cleanSession (self : DefaultFitter) (d : Option Disconnect) : Bool :=
  match self.connInfo with
  | .v3 c => c.cleanSession
  | .v5 _ => self.sessionExpiryInterval d = 0

def willDelayInterval (self : DefaultFitter) : Option Duration :=
  self.connInfo.lastWill.bind LastWill.willDelayInterval

def processLastWill (self : DefaultFitter) (parse : List Char → UserProperties) : List Publish :=
  (self.connInfo.lastWill.map (LastWill.toPublish parse)).toList

end DefaultFitter

/-! ## The event loops -/

structure StateFlags where
  kicked : Bool := false
  byAdminKick : Bool := false
  disconnectReceived : Bool := false
  cleanStart : Bool := false

namespace StateFlags

def kick (self : StateFlags) (cleanStart isAdmin : Bool) : StateFlags :=
  { self with
    kicked := true
    byAdminKick := self.byAdminKick || isAdmin
    cleanStart := self.cleanStart || cleanStart }

def lastWillEnable (flags : StateFlags) (cleanSession : Bool) : Bool :=
  let sessionPresent := flags.kicked && !flags.cleanStart && !cleanSession
  !(flags.disconnectReceived || sessionPresent)

end StateFlags

/-- The event loop without a connection, and when its timers go off. -/
structure OfflineLoop where
  since : ℕ
  willDelayInterval : Option Duration
  willDelayAt : Option ℕ
  sessionExpiryInterval : Duration

/-- How the event loops end: the session is cleaned up, or another connection or an administrator has
ended it.  `elapsed` says whether the will delay had elapsed by then. -/
inductive Ending
  | cleaned
  | kicked (cleanStart isAdmin elapsed : Bool)
  deriving DecidableEq

inductive Phase
  | online
  | offline (o : OfflineLoop)
  | ended (e : Ending)

structure WillRun where
  flags : StateFlags := {}
  /-- The DISCONNECT packets of the client, and the last of them. -/
  reasons : List Disconnect := []
  mqttDisconnect : Option Disconnect := none
  phase : Phase := .online
  published : List Publish := []

namespace WillRun

inductive Event
  | disconnect (d : Disconnect)
  /-- The connection is lost or closed, times out, or breaks the protocol. -/
  | close (now : ℕ)
  | kick (senderClosed cleanStart isAdmin : Bool) (now : ℕ)
  | sessionExpired (now : ℕ)
  | willDelayElapsed (now : ℕ)

variable (f : DefaultFitter) (parse : List Char → UserProperties)

/-- The will is published now, or the delay of it is handed on. -/
def lastWillMessage (s : WillRun) : List Publish × Option Duration :=
  let cleanSession := f.cleanSession s.mqttDisconnect
  if s.flags.lastWillEnable cleanSession then
    if cleanSession || f.willDelayInterval.isNone then (s.published ++ f.processLastWill parse, none)
    else (s.published, f.willDelayInterval)
  else (s.published, none)

def endOnline (s : WillRun) (now : ℕ) : WillRun :=
  let cleanSession := f.cleanSession s.mqttDisconnect
  let (published, willDelayInterval) := lastWillMessage f parse s
  if s.flags.kicked then
    { s with published, phase := .ended (.kicked s.flags.cleanStart s.flags.byAdminKick false) }
  else if cleanSession then { s with published, phase := .ended .cleaned }
  else
    { s with
      published
      phase := .offline
        { since := now
          willDelayInterval
          willDelayAt := willDelayInterval.map (now + ·)
          sessionExpiryInterval := f.sessionExpiryInterval s.mqttDisconnect } }

def exec (s : WillRun) (e : Event) : WillRun :=
  match s.phase, e with
  | .online, .disconnect d =>
    { s with
      flags := { s.flags with disconnectReceived := true }
      reasons := s.reasons ++ [d]
      mqttDisconnect := some d }
  | .online, .close now => endOnline f parse s now
  | .online, .kick senderClosed cleanStart isAdmin now =>
    if senderClosed then s
    else endOnline f parse { s with flags := s.flags.kick cleanStart isAdmin } now
  | .offline o, .kick senderClosed cleanStart isAdmin now =>
    if senderClosed then s
    else
      { s with
        flags := s.flags.kick cleanStart isAdmin
        phase := .ended
          (.kicked cleanStart isAdmin (o.since + f.willDelayInterval.getD 0 ≤ now)) }
  | .offline o, .sessionExpired now =>
    if o.since + o.sessionExpiryInterval ≤ now then
      { s with
        published := if o.willDelayInterval.isSome then s.published ++ f.processLastWill parse
          else s.published
        phase := .ended .cleaned }
    else s
  | .offline o, .willDelayElapsed now =>
    if o.willDelayAt.any (· ≤ now) then
      { s with
        published := if o.willDelayInterval.isSome then s.published ++ f.processLastWill parse
          else s.published
        phase := .offline
          { o with
            willDelayInterval := none
            willDelayAt := some (now + o.sessionExpiryInterval) } }
    else s
  | _, _ => s

def run (s : WillRun) (events : List Event) : WillRun := events.foldl (exec f parse) s

/-! ## What the client may rely on -/

def Normal (s : WillRun) : Prop := ∃ d ∈ s.reasons, d.isNormal = true

/-- Another connection has resumed the session before the will delay had elapsed. -/
def Resumed (s : WillRun) : Prop :=
  s.phase = .ended (.kicked false false false) ∧ f.cleanSession s.mqttDisconnect = false

/-- The will is published at most once, and it is published when the session has ended, except after a
normal DISCONNECT or if the session was resumed in time. -/
def Honoured (s : WillRun) : Prop :=
  (s.published = [] ∨ s.published = f.processLastWill parse) ∧
    ∀ e, s.phase = .ended e → s.published = f.processLastWill parse ∨ s.Normal ∨ s.Resumed f

/-- The client has not withdrawn the will with a DISCONNECT other than a normal one. -/
def Kept (s : WillRun) : Prop := s.flags.disconnectReceived = true → s.Normal

/-- The events that end the session leave no will behind. -/
def Heeds (s : WillRun) (e : Event) : Prop :=
  match s.phase, e with
  | .online, .close _ => f.cleanSession s.mqttDisconnect = true → s.Kept
  | .online, .kick senderClosed cleanStart isAdmin _ =>
    senderClosed = true ∨ s.Normal ∨
      cleanStart = false ∧ isAdmin = false ∧ f.cleanSession s.mqttDisconnect = false ∨
      s.flags.disconnectReceived = false ∧
        (f.cleanSession s.mqttDisconnect = true ∨ cleanStart = true ∧ f.willDelayInterval = none)
  | .offline o, .kick senderClosed cleanStart isAdmin now =>
    senderClosed = true ∨ s.Normal ∨
      cleanStart = false ∧ isAdmin = false ∧ now < o.since + f.willDelayInterval.getD 0 ∨
      s.flags.disconnectReceived = false ∧ o.willDelayInterval = none
  | .offline o, .sessionExpired now => o.since + o.sessionExpiryInterval ≤ now → s.Kept
  | _, _ => True

instance (s : WillRun) : Decidable s.Normal :=
  inferInstanceAs (Decidable (∃ d ∈ s.reasons, d.isNormal = true))

instance (s : WillRun) : Decidable s.Kept :=
  inferInstanceAs (Decidable (s.flags.disconnectReceived = true → s.Normal))

instance : (s : WillRun) → (e : Event) → Decidable (s.Heeds f e)
  | ⟨flags, reasons, mqttDisconnect, .online, published⟩, .close _ =>
    inferInstanceAs (Decidable (f.cleanSession mqttDisconnect = true →
      Kept ⟨flags, reasons, mqttDisconnect, .online, published⟩))
  | ⟨flags, reasons, mqttDisconnect, .online, published⟩, .kick senderClosed cleanStart isAdmin _ =>
    inferInstanceAs (Decidable (senderClosed = true ∨
      Normal ⟨flags, reasons, mqttDisconnect, .online, published⟩ ∨
      cleanStart = false ∧ isAdmin = false ∧ f.cleanSession mqttDisconnect = false ∨
      flags.disconnectReceived = false ∧
        (f.cleanSession mqttDisconnect = true ∨ cleanStart = true ∧ f.willDelayInterval = none)))
  | ⟨flags, reasons, mqttDisconnect, .offline o, published⟩, .kick senderClosed cleanStart isAdmin now =>
    inferInstanceAs (Decidable (senderClosed = true ∨
      Normal ⟨flags, reasons, mqttDisconnect, .offline o, published⟩ ∨
      cleanStart = false ∧ isAdmin = false ∧ now < o.since + f.willDelayInterval.getD 0 ∨
      flags.disconnectReceived = false ∧ o.willDelayInterval = none))
  | ⟨flags, reasons, mqttDisconnect, .offline o, published⟩, .sessionExpired now =>
    inferInstanceAs (Decidable (o.since + o.sessionExpiryInterval ≤ now →
      Kept ⟨flags, reasons, mqttDisconnect, .offline o, published⟩))
  | ⟨_, _, _, .online, _⟩, .disconnect _ | ⟨_, _, _, .online, _⟩, .sessionExpired _
  | ⟨_, _, _, .online, _⟩, .willDelayElapsed _ | ⟨_, _, _, .offline _, _⟩, .disconnect _
  | ⟨_, _, _, .offline _, _⟩, .close _ | ⟨_, _, _, .offline _, _⟩, .willDelayElapsed _ => isTrue trivial
  | ⟨_, _, _, .ended _, _⟩, e => isTrue (by cases e <;> trivial)

/-- The will as far as it is published when the connection has ended. -/
structure Inv (s : WillRun) : Prop where
  online : s.phase = .online →
    s.published = [] ∧ s.flags = { disconnectReceived := s.flags.disconnectReceived }
  offline : ∀ o, s.phase = .offline o → f.cleanSession s.mqttDisconnect = false ∧
    if s.flags.disconnectReceived then s.published = [] ∧ o.willDelayInterval = none
    else s.published = if o.willDelayInterval.isSome then [] else f.processLastWill parse
  once : s.published = [] ∨ s.published = f.processLastWill parse

theorem inv_init : Inv f parse {} where
  online _ := ⟨rfl, rfl⟩
  offline _ h := nomatch h
  once := .inl rfl

variable {f parse} {s : WillRun}

theorem once_lastWillMessage (f : DefaultFitter) (parse : List Char → UserProperties) (h : s.published = []) :
    (lastWillMessage f parse s).1 = [] ∨ (lastWillMessage f parse s).1 = f.processLastWill parse := by
  unfold lastWillMessage
  rw [h]
  dsimp only
  split_ifs
  · exact .inr rfl
  · exact .inl rfl
  · exact .inl rfl

theorem Inv.of_ended {e : Ending} (hphase : s.phase = .ended e)
    (honce : s.published = [] ∨ s.published = f.processLastWill parse) : Inv f parse s where
  online h := nomatch hphase.symm.trans h
  offline _ h := nomatch hphase.symm.trans h
  once := honce

section Online

variable (h : Inv f parse s) (honline : s.phase = .online)

include h honline

theorem lastWillMessage_close :
    lastWillMessage f parse s =
      if s.flags.disconnectReceived then ([], none)
      else if f.cleanSession s.mqttDisconnect || f.willDelayInterval.isNone then
        (f.processLastWill parse, none)
      else ([], f.willDelayInterval) := by
  obtain ⟨hpublished, hflags⟩ := h.online honline
  unfold lastWillMessage
  rw [hpublished, hflags]
  cases s.flags.disconnectReceived with
  | true | false => rfl

theorem lastWillMessage_kick (cleanStart isAdmin : Bool) :
    (lastWillMessage f parse { s with flags := s.flags.kick cleanStart isAdmin }).1 =
      if s.flags.disconnectReceived = false ∧ (f.cleanSession s.mqttDisconnect = true ∨
          cleanStart = true ∧ f.willDelayInterval = none) then f.processLastWill parse
      else [] := by
  obtain ⟨hpublished, hflags⟩ := h.online honline
  unfold lastWillMessage
  rw [hpublished, hflags]
  generalize f.cleanSession s.mqttDisconnect = cleanSession
  cases s.flags.disconnectReceived <;> cases cleanSession <;> cases cleanStart <;>
    cases f.willDelayInterval <;> rfl

theorem endOnline_close (now : ℕ) :
    endOnline f parse s now =
      { s with
        published := (lastWillMessage f parse s).1
        phase := if f.cleanSession s.mqttDisconnect then .ended .cleaned
          else .offline
            { since := now
              willDelayInterval := (lastWillMessage f parse s).2
              willDelayAt := (lastWillMessage f parse s).2.map (now + ·)
              sessionExpiryInterval := f.sessionExpiryInterval s.mqttDisconnect } } := by
  have hkicked : s.flags.kicked = false := by rw [(h.online honline).2]
  unfold endOnline
  rw [hkicked]
  dsimp only
  rw [if_neg Bool.false_ne_true]
  split_ifs <;> rfl

theorem endOnline_kick (cleanStart isAdmin : Bool) (now : ℕ) :
    endOnline f parse { s with flags := s.flags.kick cleanStart isAdmin } now =
      { s with
        flags := s.flags.kick cleanStart isAdmin
        published := (lastWillMessage f parse { s with flags := s.flags.kick cleanStart isAdmin }).1
        phase := .ended (.kicked cleanStart isAdmin false) } := by
  unfold endOnline
  rw [(h.online honline).2]
  rfl

theorem Inv.endOnline_close (now : ℕ) :
    Inv f parse (endOnline f parse s now) := by
  have honce := once_lastWillMessage f parse (h.online honline).1
  rw [WillRun.endOnline_close h honline]
  cases hclean : f.cleanSession s.mqttDisconnect with
  | true => exact .of_ended rfl honce
  | false =>
    refine ⟨nofun, fun o ho => ⟨hclean, ?_⟩, honce⟩
    obtain rfl := Phase.offline.inj ho
    dsimp only
    rw [lastWillMessage_close h honline, hclean, Bool.false_or]
    cases s.flags.disconnectReceived with
    | true => exact ⟨rfl, rfl⟩
    | false =>
      cases f.willDelayInterval with
      | none | some delay => rfl

end Online

theorem Inv.pending (h : Inv f parse s) {o : OfflineLoop} (hoffline : s.phase = .offline o)
    (hpending : o.willDelayInterval.isSome = true) :
    s.published = [] ∧ s.flags.disconnectReceived = false := by
  obtain ⟨-, hpublished⟩ := h.offline o hoffline
  rw [if_pos hpending] at hpublished
  split_ifs at hpublished with hdisconnect
  · rw [hpublished.2] at hpending
    exact nomatch hpending
  · exact ⟨hpublished, eq_false_of_ne_true hdisconnect⟩

theorem Inv.exec (h : Inv f parse s) (e : Event) : Inv f parse (exec f parse s e) := by
  unfold WillRun.exec
  split
  · rename_i d honline
    obtain ⟨hpublished, hflags⟩ := h.online honline
    refine ⟨fun _ => ⟨hpublished, ?_⟩, fun o ho => (nomatch honline.symm.trans ho), h.once⟩
    dsimp only
    rw [hflags]
  · rename_i now honline
    exact h.endOnline_close honline now
  · rename_i senderClosed cleanStart isAdmin now honline
    split_ifs
    · exact h
    · rw [endOnline_kick h honline]
      exact .of_ended rfl (once_lastWillMessage f parse (h.online honline).1)
  · split_ifs
    · exact h
    · exact .of_ended rfl h.once
  · rename_i o now hoffline
    split_ifs with hnow hpending
    · refine .of_ended rfl (.inr ?_)
      rw [(h.pending hoffline hpending).1]
      rfl
    · exact .of_ended rfl h.once
    · exact h
  · rename_i o now hoffline
    split_ifs with hnow hpending
    · obtain ⟨hpublished, hdisconnect⟩ := h.pending hoffline hpending
      have hwill : s.published ++ f.processLastWill parse = f.processLastWill parse := by
        rw [hpublished]
        rfl
      refine ⟨nofun, fun o' ho' => ⟨(h.offline o hoffline).1, ?_⟩, .inr hwill⟩
      obtain rfl := Phase.offline.inj ho'
      rw [hdisconnect]
      exact hwill
    · obtain ⟨hclean, hpublished⟩ := h.offline o hoffline
      refine ⟨nofun, fun o' ho' => ⟨hclean, ?_⟩, h.once⟩
      obtain rfl := Phase.offline.inj ho'
      rw [if_neg hpending] at hpublished
      dsimp only
      cases hdisconnect : s.flags.disconnectReceived with
      | true =>
        rw [hdisconnect] at hpublished
        exact ⟨hpublished.1, rfl⟩
      | false =>
        rw [hdisconnect] at hpublished
        exact hpublished
    · exact h
  · exact h

/-! ## Which runs lose the will -/

theorem honoured_of_not_ended (honce : s.published = [] ∨ s.published = f.processLastWill parse)
    (h : ∀ e, s.phase ≠ .ended e) : Honoured f parse s :=
  ⟨honce, fun e he => absurd he (h e)⟩

theorem honoured_iff_of_ended {e : Ending} (h : s.phase = .ended e)
    (honce : s.published = [] ∨ s.published = f.processLastWill parse) :
    Honoured f parse s ↔ s.published = f.processLastWill parse ∨ s.Normal ∨ s.Resumed f :=
  ⟨fun hs => hs.2 e h, fun hs => ⟨honce, fun _ _ => hs⟩⟩

theorem not_resumed_of_cleaned (h : s.phase = .ended .cleaned) : ¬ s.Resumed f :=
  fun hs => nomatch h.symm.trans hs.1

section Will

variable (hwill : f.processLastWill parse ≠ [])

include hwill

theorem honoured_close (h : Inv f parse s) (honline : s.phase = .online) (now : ℕ) :
    Honoured f parse (endOnline f parse s now) ↔
      (f.cleanSession s.mqttDisconnect = true → s.Kept) := by
  have honce := once_lastWillMessage f parse (h.online honline).1
  rw [endOnline_close h honline]
  cases hclean : f.cleanSession s.mqttDisconnect with
  | false =>
    refine iff_of_true (honoured_of_not_ended honce fun e he => ?_) nofun
    exact nomatch he
  | true =>
    rw [honoured_iff_of_ended rfl honce, or_iff_left (not_resumed_of_cleaned rfl)]
    dsimp only
    rw [lastWillMessage_close h honline, hclean, Bool.true_or, if_pos rfl]
    unfold Kept
    cases s.flags.disconnectReceived with
    | true => exact ⟨fun hor _ _ => hor.resolve_left hwill.symm, fun hkept => .inr (hkept rfl rfl)⟩
    | false => exact iff_of_true (.inl rfl) nofun

theorem honoured_kick (h : Inv f parse s) (honline : s.phase = .online) (cleanStart isAdmin : Bool)
    (now : ℕ) :
    Honoured f parse (endOnline f parse { s with flags := s.flags.kick cleanStart isAdmin } now) ↔
      s.Normal ∨ cleanStart = false ∧ isAdmin = false ∧ f.cleanSession s.mqttDisconnect = false ∨
      s.flags.disconnectReceived = false ∧
        (f.cleanSession s.mqttDisconnect = true ∨ cleanStart = true ∧ f.willDelayInterval = none) := by
  have honce := once_lastWillMessage (s := { s with flags := s.flags.kick cleanStart isAdmin }) f parse
    (h.online honline).1
  rw [endOnline_kick h honline]
  refine (honoured_iff_of_ended rfl honce).trans ?_
  dsimp only
  rw [lastWillMessage_kick h honline, or_comm, or_assoc]
  refine or_congr Iff.rfl (or_congr ?_ ?_)
  · unfold Resumed
    simp [and_assoc]
  · split_ifs with hpublished
    · exact iff_of_true rfl hpublished
    · exact iff_of_false hwill.symm hpublished

theorem honoured_offlineKick (h : Inv f parse s) {o : OfflineLoop} (hoffline : s.phase = .offline o)
    (cleanStart isAdmin : Bool) (now : ℕ) :
    Honoured f parse (exec f parse s (.kick false cleanStart isAdmin now)) ↔
      s.Normal ∨ cleanStart = false ∧ isAdmin = false ∧ now < o.since + f.willDelayInterval.getD 0 ∨
      s.flags.disconnectReceived = false ∧ o.willDelayInterval = none := by
  obtain ⟨hclean, hpublished⟩ := h.offline o hoffline
  unfold exec
  rw [hoffline]
  dsimp only
  rw [if_neg Bool.false_ne_true]
  refine Iff.trans (honoured_iff_of_ended rfl ?_) ?_
  · exact h.once
  rw [or_comm, or_assoc]
  refine or_congr Iff.rfl (or_congr ?_ ?_)
  · unfold Resumed
    simp [hclean]
  · cases hdisconnect : s.flags.disconnectReceived with
    | true =>
      rw [hdisconnect] at hpublished
      refine iff_of_false (fun heq => ?_) fun hand => nomatch hand.1
      exact hwill (heq.symm.trans hpublished.1)
    | false =>
      rw [hdisconnect] at hpublished
      cases hdelay : o.willDelayInterval with
      | none =>
        rw [hdelay] at hpublished
        exact iff_of_true hpublished ⟨rfl, rfl⟩
      | some delay =>
        rw [hdelay] at hpublished
        refine iff_of_false (fun heq => ?_) fun hand => nomatch hand.2
        exact hwill (heq.symm.trans hpublished)

theorem honoured_expired (h : Inv f parse s) {o : OfflineLoop} (hoffline : s.phase = .offline o)
    {now : ℕ} (hnow : o.since + o.sessionExpiryInterval ≤ now) :
    Honoured f parse (exec f parse s (.sessionExpired now)) ↔ s.Kept := by
  have honce := (h.exec (.sessionExpired now)).once
  unfold exec at honce ⊢
  rw [hoffline] at honce ⊢
  dsimp only at honce ⊢
  rw [if_pos hnow] at honce ⊢
  rw [honoured_iff_of_ended rfl honce, or_iff_left (not_resumed_of_cleaned rfl)]
  dsimp only
  unfold Kept
  obtain ⟨-, hpublished⟩ := h.offline o hoffline
  cases hdisconnect : s.flags.disconnectReceived with
  | true =>
    rw [hdisconnect] at hpublished
    obtain ⟨hnothing, hdelay⟩ := hpublished
    rw [hdelay, hnothing]
    exact ⟨fun hor _ => hor.resolve_left hwill.symm, fun hkept => .inr (hkept rfl)⟩
  | false =>
    rw [hdisconnect] at hpublished
    refine iff_of_true (.inl ?_) nofun
    cases hdelay : o.willDelayInterval with
    | none =>
      rw [hdelay] at hpublished
      exact hpublished
    | some delay =>
      rw [hdelay] at hpublished
      rw [hpublished]
      rfl

theorem honoured_exec (h : Inv f parse s) (hs : Honoured f parse s) (e : Event) :
    Honoured f parse (exec f parse s e) ↔ s.Heeds f e := by
  obtain ⟨flags, reasons, mqttDisconnect, phase, published⟩ := s
  cases phase with
  | online =>
    cases e with
    | disconnect d => exact iff_of_true (honoured_of_not_ended h.once nofun) trivial
    | close now => exact honoured_close hwill h rfl now
    | kick senderClosed cleanStart isAdmin now =>
      cases senderClosed with
      | true => exact iff_of_true hs (.inl rfl)
      | false =>
        exact (honoured_kick hwill h rfl cleanStart isAdmin now).trans
          (or_iff_right Bool.false_ne_true).symm
    | sessionExpired now | willDelayElapsed now => exact iff_of_true hs trivial
  | offline o =>
    cases e with
    | disconnect d | close now => exact iff_of_true hs trivial
    | kick senderClosed cleanStart isAdmin now =>
      cases senderClosed with
      | true => exact iff_of_true hs (.inl rfl)
      | false =>
        exact (honoured_offlineKick hwill h rfl cleanStart isAdmin now).trans
          (or_iff_right Bool.false_ne_true).symm
    | sessionExpired now =>
      by_cases hnow : o.since + o.sessionExpiryInterval ≤ now
      · exact (honoured_expired hwill h rfl hnow).trans ⟨fun hkept _ => hkept, fun hkept => hkept hnow⟩
      · have hstay : exec f parse ⟨flags, reasons, mqttDisconnect, .offline o, published⟩
            (.sessionExpired now) = ⟨flags, reasons, mqttDisconnect, .offline o, published⟩ :=
          if_neg hnow
        rw [hstay]
        exact iff_of_true hs fun h => absurd h hnow
    | willDelayElapsed now =>
      have honce := (h.exec (.willDelayElapsed now)).once
      refine iff_of_true (honoured_of_not_ended honce fun e he => ?_) trivial
      unfold exec at he
      dsimp only at he
      split_ifs at he
  | ended ending =>
    cases e with
    | disconnect d | close now | kick senderClosed cleanStart isAdmin now =>
      exact iff_of_true hs trivial
    | sessionExpired now | willDelayElapsed now => exact iff_of_true hs trivial

end Will

theorem processLastWill_ne_nil {lw : LastWill} (h : f.connInfo.lastWill = some lw) :
    f.processLastWill parse ≠ [] := by
  unfold DefaultFitter.processLastWill
  rw [h]
  exact List.cons_ne_nil _ _

/-- At all times the will is published at most once, and not forgotten at the end, exactly if every event
that ends the session heeds it. -/
theorem honoured_iff (f : DefaultFitter) (parse : List Char → UserProperties) {lw : LastWill}
    (h : f.connInfo.lastWill = some lw) (events : List Event) :
    (∀ pre, pre <+: events → Honoured f parse (run f parse {} pre)) ↔
      Along (exec f parse) (Heeds f) {} events :=
  forall_prefix_iff_along (P := Honoured f parse) (s := {}) (fun _ e hs => Inv.exec hs e)
    (fun _ e hs hP => honoured_exec (processLastWill_ne_nil h) hs hP e) (inv_init f parse)
    (honoured_of_not_ended (.inl rfl) nofun) events

def delayed : DefaultFitter where
  connInfo := .v5 { sessionExpiryIntervalSecs := 60
                    lastWill := some { qos := .atMostOnce, retain := false, topic := "t", message := []
                                       willDelayIntervalSec := some 5 } }
  listenSessionExpiryInterval := 0
  listenMaxSessionExpiryInterval := 0

/-- The connection is lost, the delay elapses, and an administrator ends the session. -/
theorem honoured_iff_delayed :
    Honoured delayed (fun _ => []) (run delayed (fun _ => []) {} [
      .close 0, .willDelayElapsed 5000, .kick false true true 6000]) :=
  (honoured_iff delayed (fun _ => []) rfl _).2 (by decide +kernel) _ List.prefix_rfl

/-- The client asks for its will with the DISCONNECT, and the session expires; or another connection
with clean start ends the session while the delay is pending. -/
theorem will_lost :
    ¬ Honoured delayed (fun _ => []) (run delayed (fun _ => []) {} [
        .disconnect (.v5 { reasonCode := .disconnectWithWillMessage }), .close 0,
        .sessionExpired 60000]) ∧
      ¬ Honoured delayed (fun _ => []) (run delayed (fun _ => []) {} [
        .close 0, .kick false true false 1000]) := by
  constructor
  · rintro ⟨-, hended⟩
    rcases hended .cleaned rfl with hpublished | hnormal | hresumed
    · exact absurd hpublished (by decide +kernel)
    · exact absurd hnormal (by decide +kernel)
    · exact nomatch hresumed.1
  · rintro ⟨-, hended⟩
    rcases hended (.kicked true false false) rfl with hpublished | hnormal | hresumed
    · exact absurd hpublished (by decide +kernel)
    · exact absurd hnormal (by decide +kernel)
    · exact nomatch hresumed.1

end WillRun

end FerroMq
