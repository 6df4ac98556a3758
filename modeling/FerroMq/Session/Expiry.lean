import FerroMq.Broadcast.Forward
import FerroMq.Retain.Storage
import FerroMq.Session.Aliases
import FerroMq.Session.Outbound

/-!
# The expiry of a message

A message is sent with what is left of its expiry interval, rounded down to seconds.  In the last second this is
zero, which stands for no interval at all (`expiry_lost`).  `carried_iff` says that this is the only flaw.
-/

namespace FerroMq

open Lib Codec

inductive MessageExpiryCheckResult
  | expiry
  | remaining (interval : Option NonZeroU32)
  deriving DecidableEq

def nonZeroU32 (n : UInt32) : Option NonZeroU32 := if h : n ≠ 0 then some ⟨n, h⟩ else none

def expiryInterval (publish : Publish) : Option NonZeroU32 :=
  publish.properties.bind PublishProperties.messageExpiryInterval

/-- `message_expiry_check`.  `hookExpired` is the answer of the hook and `listenInterval` the interval of
the listener.  The clock is read again if the message has no time of its own. -/
def messageExpiryCheck (hookExpired : Bool) (listenInterval now later : ℤ)
    (publish : Broker.Publish) : MessageExpiryCheckResult :=
  if hookExpired then .expiry
  else
    let interval :=
      ((expiryInterval publish.inner).map fun i => (i.1.toNat : ℤ) * 1000).getD listenInterval
    if interval = 0 then .remaining none
    else
      let remaining := now - publish.createTime.getD later
      if remaining < interval then
        .remaining (nonZeroU32 (UInt32.ofInt ((interval - remaining).tdiv 1000)))
      else .expiry

/-- The hook `message_delivered`: a message may be put in place of another one, with the same expiry. -/
structure MessageDelivered where
  replaces : Broker.Publish → Option Broker.Publish
  keeps : ∀ p p', replaces p = some p' →
    p'.createTime = p.createTime ∧ expiryInterval p'.inner = expiryInterval p.inner

/-- What an attempt to deliver a message finds. -/
structure DeliveryAttempt where
  /-- The time since the attempt before, or since the message was received. -/
  wait : ℕ
  /-- The time until the clock is read again. -/
  lag : ℕ
  hookExpired : Bool
  /-- What `next_id` returns. -/
  nextId : Option NonZeroU16
  messageDelivered : MessageDelivered
  serverTopicAliases : Option ServerTopicAliases
  /-- The packet can be sent. -/
  sends : Bool

inductive DeliveryResult
  | expired
  | noPacketId
  | failed
  /-- The packet, and the message as it is kept in the inflight window. -/
  | sent (packet : Publish) (kept : Option Broker.Publish)
  deriving DecidableEq

namespace DeliveryAttempt

def withId (a : DeliveryAttempt) (publish : Broker.Publish) : Option Broker.Publish :=
  if Outbound.needsId publish.inner then
    a.nextId.map fun packetId => { publish with inner := { publish.inner with packetId := some packetId } }
  else some publish

def deliver (a : DeliveryAttempt) (listenInterval now : ℤ) (publish : Broker.Publish) :
    DeliveryResult :=
  match messageExpiryCheck a.hookExpired listenInterval now (now + a.lag) publish with
  | .expiry => .expired
  | .remaining interval =>
    match a.withId publish with
    | none => .noPacketId
    | some publish =>
      let publish := (a.messageDelivered.replaces publish).getD publish
      if a.sends then
        .sent (Sink.publish publish.inner interval a.serverTopicAliases).1
          (if (Outbound.momentStatus publish.inner.qos).isSome then some publish else none)
      else .failed

/-- Nothing but its expiry keeps the message from being sent. -/
structure Goes (a : DeliveryAttempt) (publish : Broker.Publish) : Prop where
  hook : a.hookExpired = false
  withId : (a.withId publish).isSome = true
  sends : a.sends = true

end DeliveryAttempt

def reforwarded (publish : Broker.Publish) : Broker.Publish :=
  { publish with inner := { publish.inner with dup := true } }

/-- A message on its way to one subscriber. -/
structure Expiring where
  clock : ℤ
  /-- The message, until it is gone. -/
  message : Option Broker.Publish
  /-- The interval in the last packet that was sent. -/
  seen : Option NonZeroU32 := none

namespace Expiring

variable (listenInterval : ℤ)

def step (s : Expiring) (a : DeliveryAttempt) : Expiring :=
  let now := s.clock + a.wait
  match s.message with
  | none => { s with clock := now }
  | some publish =>
    match a.deliver listenInterval now publish with
    | .sent packet kept => ⟨now, kept.map reforwarded, expiryInterval packet⟩
    | _ => ⟨now, none, s.seen⟩

/-- A message with an expiry interval. -/
structure Source where
  publish : Publish
  interval : NonZeroU32
  has : expiryInterval publish = some interval

def start (source : Source) (received : ℤ) (e : SubRelation)
    (targetClientid : Option ClientId) (delayInterval : Option UInt32) : Expiring where
  clock := received
  message := some ⟨e.forwarded source.publish, targetClientid, delayInterval, some received⟩

variable (interval : NonZeroU32) (received : ℤ)

def left (now : ℤ) : ℤ := 1000 * interval.1.toNat - (now - received)

/-- A packet is sent only before the message has expired; it has an interval, which is less than a second
longer than what is left, and not longer than the one before. -/
def Carried (s : Expiring) (a : DeliveryAttempt) : Prop :=
  ∀ publish packet kept, s.message = some publish →
    a.deliver listenInterval (s.clock + a.wait) publish = .sent packet kept →
      0 < left interval received (s.clock + a.wait) ∧
      ∃ v, expiryInterval packet = some v ∧
        1000 * (v.1.toNat : ℤ) < left interval received (s.clock + a.wait) + 1000 ∧
        ∀ w ∈ s.seen, v.1.toNat ≤ w.1.toNat

/-- The message is not sent in the last second. -/
def Timely (s : Expiring) (a : DeliveryAttempt) : Prop :=
  ∀ publish, s.message = some publish → a.Goes publish →
    left interval received (s.clock + a.wait) ≤ 0 ∨ 1000 ≤ left interval received (s.clock + a.wait)

/-! ## One attempt -/

section Attempt

variable {listenInterval interval received} {now : ℤ} {a : DeliveryAttempt}
  {publish : Broker.Publish}

theorem nonZeroU32_seconds {r : ℤ} (hpos : 0 < r) (hle : r ≤ 1000 * interval.1.toNat) :
    (r < 1000 ∧ nonZeroU32 (UInt32.ofInt (r.tdiv 1000)) = none) ∨
    (1000 ≤ r ∧ ∃ v, nonZeroU32 (UInt32.ofInt (r.tdiv 1000)) = some v ∧ (v.1.toNat : ℤ) = r / 1000) := by
  have hlt : (interval.1.toNat : ℤ) < 2 ^ 32 := by exact_mod_cast interval.1.toNat_lt
  have hnat : ((UInt32.ofInt (r.tdiv 1000)).toNat : ℤ) = r / 1000 := by
    rw [Int.tdiv_eq_ediv_of_nonneg hpos.le, UInt32.ofInt, Int.emod_eq_of_lt (by omega) (by omega),
      UInt32.toNat_ofNat_of_lt' (by change _ < 4294967296; omega)]
    omega
  unfold nonZeroU32
  rcases lt_or_ge r 1000 with hlast | hmore
  · have hzero : UInt32.ofInt (r.tdiv 1000) = 0 := UInt32.toNat_inj.1 (by change _ = 0; omega)
    exact .inl ⟨hlast, dif_neg (not_not.2 hzero)⟩
  · have hne : UInt32.ofInt (r.tdiv 1000) ≠ 0 := by
      intro hzero
      rw [hzero] at hnat
      change (0 : ℤ) = _ at hnat
      omega
    exact .inr ⟨hmore, ⟨_, hne⟩, dif_pos hne, hnat⟩

/-- The expiry of a message, as it was when it was received. -/
structure Kept (interval : NonZeroU32) (received : ℤ) (publish : Broker.Publish) : Prop where
  interval : expiryInterval publish.inner = some interval
  received : publish.createTime = some received

theorem check_eq (h : Kept interval received publish) (hookExpired : Bool) (later : ℤ) :
    messageExpiryCheck hookExpired listenInterval now later publish =
      if hookExpired = false ∧ 0 < left interval received now then
        .remaining (nonZeroU32 (UInt32.ofInt ((left interval received now).tdiv 1000)))
      else .expiry := by
  have hne : (interval.1.toNat : ℤ) * 1000 ≠ 0 := by
    intro hzero
    have : interval.1.toNat = 0 := by omega
    exact interval.2 (UInt32.toNat_inj.1 this)
  have hleft : (interval.1.toNat : ℤ) * 1000 - (now - received) = left interval received now := by
    unfold left
    omega
  unfold messageExpiryCheck
  rw [h.interval, h.received]
  cases hookExpired with
  | true => rfl
  | false =>
    have hiff : now - received < (interval.1.toNat : ℤ) * 1000 ↔ 0 < left interval received now := by
      rw [← hleft, sub_pos]
    simp only [Option.map_some, Option.getD_some, if_neg hne, hleft, hiff, true_and]
    rfl

theorem Kept.withId (h : Kept interval received publish) {p : Broker.Publish}
    (hp : a.withId publish = some p) : Kept interval received p := by
  unfold DeliveryAttempt.withId at hp
  split_ifs at hp
  · obtain ⟨packetId, -, rfl⟩ := Option.map_eq_some_iff.1 hp
    exact ⟨h.interval, h.received⟩
  · obtain rfl := Option.some.inj hp
    exact h

theorem Kept.delivered (h : Kept interval received publish) (hook : MessageDelivered) :
    Kept interval received ((hook.replaces publish).getD publish) := by
  cases hp : hook.replaces publish with
  | none => exact h
  | some p =>
    obtain ⟨htime, hinterval⟩ := hook.keeps publish p hp
    exact ⟨hinterval.trans h.interval, htime.trans h.received⟩

theorem Kept.expiryInterval_sent (h : Kept interval received publish) (v : Option NonZeroU32)
    (aliases : Option ServerTopicAliases) :
    expiryInterval (Sink.publish publish.inner v aliases).1 = v := by
  have hproperties := h.interval
  unfold expiryInterval at hproperties
  obtain ⟨properties, hsome, -⟩ := Option.bind_eq_some_iff.1 hproperties
  unfold expiryInterval Sink.publish
  cases aliases <;> simp [hsome]

/-- A message is sent if nothing but its expiry could keep it from being sent, and it has not expired. -/
theorem deliver_cases (h : Kept interval received publish) :
    (a.Goes publish ∧ 0 < left interval received now ∧ ∃ packet kept,
      a.deliver listenInterval now publish = .sent packet kept ∧
      expiryInterval packet =
        nonZeroU32 (UInt32.ofInt ((left interval received now).tdiv 1000)) ∧
      ∀ p ∈ kept, Kept interval received p) ∨
    (¬ (a.Goes publish ∧ 0 < left interval received now) ∧
      ∀ packet kept, a.deliver listenInterval now publish ≠ .sent packet kept) := by
  unfold DeliveryAttempt.deliver
  rw [check_eq h]
  by_cases hcheck : a.hookExpired = false ∧ 0 < left interval received now
  swap
  · rw [if_neg hcheck]
    exact .inr ⟨fun hgoes => hcheck ⟨hgoes.1.hook, hgoes.2⟩, fun _ _ heq => DeliveryResult.noConfusion heq⟩
  rw [if_pos hcheck]
  dsimp only
  cases hid : a.withId publish with
  | none =>
    refine .inr ⟨fun hgoes => ?_, fun _ _ heq => DeliveryResult.noConfusion heq⟩
    have hsome := hgoes.1.withId
    rw [hid] at hsome
    exact nomatch hsome
  | some p =>
    dsimp only
    have hkept := (h.withId hid).delivered a.messageDelivered
    by_cases hsends : a.sends = true
    · rw [if_pos hsends]
      refine .inl ⟨⟨hcheck.1, by rw [hid]; rfl, hsends⟩, hcheck.2, _, _, rfl,
        hkept.expiryInterval_sent _ _, fun p' hp' => ?_⟩
      split_ifs at hp'
      · rw [← Option.some.inj hp']
        exact hkept
      · exact nomatch hp'
    · rw [if_neg hsends]
      exact .inr ⟨fun hgoes => hsends hgoes.1.sends, fun _ _ heq => DeliveryResult.noConfusion heq⟩

end Attempt

/-! ## All attempts -/

/-- The message has kept its expiry, and the last interval that was sent is not too short. -/
structure Inv (s : Expiring) : Prop where
  clock : received ≤ s.clock
  message : ∀ publish ∈ s.message, Kept interval received publish
  seen : ∀ w ∈ s.seen, left interval received s.clock / 1000 ≤ w.1.toNat

variable {listenInterval interval received} {s : Expiring}

theorem left_mono {now later : ℤ} (h : now ≤ later) :
    left interval received later ≤ left interval received now := by
  unfold left
  omega

theorem left_le {now : ℤ} (h : received ≤ now) :
    left interval received now ≤ 1000 * interval.1.toNat := by
  unfold left
  omega

theorem Inv.clock_le (h : s.Inv interval received) (a : DeliveryAttempt) : received ≤ s.clock + a.wait := by
  have := h.clock
  omega

theorem Inv.seen_later (h : s.Inv interval received) (a : DeliveryAttempt) {w : NonZeroU32}
    (hw : w ∈ s.seen) : left interval received (s.clock + a.wait) / 1000 ≤ w.1.toNat := by
  have hle : s.clock ≤ s.clock + a.wait := by omega
  exact (Int.ediv_le_ediv (by decide) (left_mono hle)).trans (h.seen w hw)

theorem Inv.sent (h : s.Inv interval received) {a : DeliveryAttempt}
    (ha : s.Timely interval received a) {publish : Broker.Publish} (hmessage : s.message = some publish)
    {packet : Publish} {kept : Option Broker.Publish}
    (hsent : a.deliver listenInterval (s.clock + a.wait) publish = .sent packet kept) :
    0 < left interval received (s.clock + a.wait) ∧ (∀ p ∈ kept, Kept interval received p) ∧
      ∃ v, expiryInterval packet = some v ∧
        (v.1.toNat : ℤ) = left interval received (s.clock + a.wait) / 1000 := by
  rcases @deliver_cases listenInterval _ _ (s.clock + a.wait) a _ (h.message publish hmessage) with
    ⟨hgoes, hpos, packet', kept', heq, hpacket, hall⟩ | ⟨-, hnot⟩
  swap
  · exact absurd hsent (hnot packet kept)
  obtain ⟨rfl, rfl⟩ := DeliveryResult.sent.inj (heq.symm.trans hsent)
  refine ⟨hpos, hall, ?_⟩
  rw [hpacket]
  rcases nonZeroU32_seconds hpos (left_le (h.clock_le a)) with ⟨hlast, -⟩ | ⟨-, hv⟩
  · have := ha publish hmessage hgoes
    omega
  · exact hv

theorem Inv.step (h : s.Inv interval received) {a : DeliveryAttempt}
    (ha : s.Timely interval received a) : (s.step listenInterval a).Inv interval received := by
  unfold Expiring.step
  cases hmessage : s.message with
  | none => exact ⟨h.clock_le a, fun _ hp => by simp at hp, fun w hw => h.seen_later a hw⟩
  | some publish =>
    have hgone : Inv interval received ⟨s.clock + a.wait, none, s.seen⟩ :=
      ⟨h.clock_le a, fun _ hp => by simp at hp, fun w hw => h.seen_later a hw⟩
    dsimp only
    cases hsent : a.deliver listenInterval (s.clock + a.wait) publish with
    | sent packet kept =>
      obtain ⟨-, hall, v, hv, hseconds⟩ := h.sent ha hmessage hsent
      refine ⟨h.clock_le a, fun p hp => ?_, fun w hw => ?_⟩
      · obtain ⟨p', hp', rfl⟩ := Option.map_eq_some_iff.1 hp
        exact ⟨(hall p' hp').interval, (hall p' hp').received⟩
      · obtain rfl := Option.some.inj (hv.symm.trans hw)
        exact hseconds.ge
    | _ => exact hgone

theorem carried_step_iff (h : s.Inv interval received) (a : DeliveryAttempt) :
    s.Carried listenInterval interval received a ↔ s.Timely interval received a := by
  constructor
  · intro hcarried publish hmessage hgoes
    by_contra hlast
    rw [not_or, not_le, not_le] at hlast
    rcases @deliver_cases listenInterval _ _ (s.clock + a.wait) a _ (h.message publish hmessage) with
      ⟨-, -, packet, kept, hsent, hpacket, -⟩ | ⟨hnot, -⟩
    · obtain ⟨-, v, hv, -⟩ := hcarried publish packet kept hmessage hsent
      rcases nonZeroU32_seconds hlast.1 (left_le (h.clock_le a)) with ⟨-, hnone⟩ | ⟨hmore, -⟩
      · exact nomatch (hpacket.trans hnone).symm.trans hv
      · exact absurd hlast.2 (not_lt.2 hmore)
    · exact hnot ⟨hgoes, hlast.1⟩
  · intro ha publish packet kept hmessage hsent
    obtain ⟨hpos, -, v, hv, hseconds⟩ := h.sent ha hmessage hsent
    refine ⟨hpos, v, hv, ?_, fun w hw => ?_⟩
    · omega
    · have := h.seen_later a hw
      omega

theorem expiryInterval_forwarded (e : SubRelation) (publish : Publish) :
    expiryInterval (e.forwarded publish) = expiryInterval publish := by
  unfold expiryInterval SubRelation.forwarded
  cases e.subIds <;> cases publish.properties <;> rfl

/-- Whatever the attempts are, the expiry of a message is carried through exactly if the message is not
sent in its last second. -/
theorem carried_iff (listenInterval : ℤ) (source : Source) (received : ℤ) (e : SubRelation)
    (targetClientid : Option ClientId) (delayInterval : Option UInt32)
    (attempts : List DeliveryAttempt) :
    Along (step listenInterval) (Carried listenInterval source.interval received)
        (start source received e targetClientid delayInterval) attempts ↔
      Along (step listenInterval) (Timely source.interval received)
        (start source received e targetClientid delayInterval) attempts := by
  refine along_congr (Inv source.interval received) (fun _ _ h ha => h.step ha)
    (fun _ a h => carried_step_iff h a) ⟨le_rfl, fun p hp => ?_, fun w hw => ?_⟩ attempts
  swap
  · exact absurd hw (Option.not_mem_none w)
  obtain rfl := Option.some.inj hp
  exact ⟨(expiryInterval_forwarded e source.publish).trans source.has, rfl⟩

def shortLived : Source where
  publish :=
    { dup := false, retain := false, qos := .atMostOnce, topic := "a", packetId := none, payload := [120],
      properties := some { messageExpiryInterval := some ⟨1, by decide⟩ } }
  interval := ⟨1, by decide⟩
  has := rfl

/-- It is sent half a second after it was received, without an interval. -/
theorem expiry_lost :
    let s := start shortLived 0 ⟨"a", "c", default, none, none⟩ none none
    let a : DeliveryAttempt := ⟨500, 0, false, none, ⟨fun _ => none, fun _ _ h => nomatch h⟩, none, true⟩
    let packet : Publish := { shortLived.publish with properties := some {} }
    (∃ publish, s.message = some publish ∧ a.deliver 0 500 publish = .sent packet none) ∧
      ¬ s.Carried 0 shortLived.interval 0 a := by
  intro s a packet
  have hsent : ∃ publish, s.message = some publish ∧ a.deliver 0 500 publish = .sent packet none :=
    ⟨_, rfl, by decide +kernel⟩
  refine ⟨hsent, fun hcarried => ?_⟩
  obtain ⟨publish, hmessage, hdeliver⟩ := hsent
  obtain ⟨-, v, hv, -⟩ := hcarried publish packet none hmessage hdeliver
  exact nomatch hv

end Expiring

end FerroMq
