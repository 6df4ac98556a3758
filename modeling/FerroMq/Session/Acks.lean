import FerroMq.Session.Outbound

/-!
# Acknowledgements of the client

PUBACK and PUBCOMP take the message with their id out of the window, whatever its QoS and status, and every
PUBREC is answered with a PUBREL (`completed_by_puback`).  `rightful_iff` says which packets a client must not
send for the exchanges to be completed as they should be.
-/

namespace FerroMq

open Lib Codec List

/-- The packets of both protocol versions. -/
inductive AckPacket
  | v3PublishAck (packetId : PacketId)
  | v5PublishAck (ack : V5.PublishAck)
  | v3PublishReceived (packetId : PacketId)
  | v5PublishReceived (ack : V5.PublishAck)
  | v3PublishComplete (packetId : PacketId)
  | v5PublishComplete (ack2 : V5.PublishAck2)
  deriving DecidableEq

inductive AckKind
  | puback
  | pubrec
  | pubcomp
  deriving DecidableEq

namespace AckPacket

def packetId : AckPacket → PacketId
  | .v3PublishAck packetId | .v3PublishReceived packetId | .v3PublishComplete packetId => packetId
  | .v5PublishAck ack | .v5PublishReceived ack => ack.packetId
  | .v5PublishComplete ack2 => ack2.packetId

def kind : AckPacket → AckKind
  | .v3PublishAck _ | .v5PublishAck _ => .puback
  | .v3PublishReceived _ | .v5PublishReceived _ => .pubrec
  | .v3PublishComplete _ | .v5PublishComplete _ => .pubcomp

def refuses : AckPacket → Bool
  | .v5PublishReceived ack => 128 ≤ toU8 ack.reasonCode
  | _ => false

end AckPacket

/-- What `process_mqtt_message` does with the packet: the window, and the id of the PUBREL that is
sent. -/
def OutInflight.processAck (self : OutInflight) (p : AckPacket) (now : ℤ) :
    OutInflight × Option PacketId :=
  match p with
  | .v3PublishAck packetId => (self.remove packetId, none)
  | .v5PublishAck ack => (self.remove ack.packetId, none)
  | .v3PublishReceived packetId => (self.updateStatus packetId .unComplete now, some packetId)
  | .v5PublishReceived ack => (self.updateStatus ack.packetId .unComplete now, some ack.packetId)
  | .v3PublishComplete packetId => (self.remove packetId, none)
  | .v5PublishComplete ack2 => (self.remove ack2.packetId, none)

theorem OutInflight.processAck_eq (self : OutInflight) (p : AckPacket) (now : ℤ) :
    self.processAck p now =
      match p.kind with
      | .puback | .pubcomp => (self.remove p.packetId, none)
      | .pubrec => (self.updateStatus p.packetId .unComplete now, some p.packetId) := by
  cases p <;> rfl

/-- The window and the packets that were received, with the times at which they came. -/
structure AckState where
  window : OutInflight
  received : List AckPacket := []

namespace AckState

def step (s : AckState) (e : AckPacket × ℤ) : AckState where
  window := (s.window.processAck e.1 e.2).1
  received := s.received ++ [e.1]

def pubrel (s : AckState) (e : AckPacket × ℤ) : Option PacketId := (s.window.processAck e.1 e.2).2

section

variable (w : OutInflight)

/-- The message was waiting for its PUBCOMP at the beginning. -/
def Begun (k : PacketId) : Prop := ∃ m, (k, m) ∈ w.queues.entries ∧ m.status = .unComplete

def HasPubrec (received : List AckPacket) (k : PacketId) : Prop :=
  ∃ p ∈ received, p.kind = .pubrec ∧ p.packetId = k

/-- A PUBREC has come for the id, and it was not a refusal. -/
def Accepted (received : List AckPacket) (k : PacketId) : Prop :=
  ∃ p ∈ received, p.kind = .pubrec ∧ p.packetId = k ∧ p.refuses = false

/-- A packet completes only the exchange that it should: it takes a message of QoS 1 out of the window
only if it is its PUBACK, and a message of QoS 2 only if it is its PUBCOMP and comes after a PUBREC, or
if it is a PUBREC that refuses it; and a PUBREL is sent only for a message of QoS 2 whose PUBREC was
not a refusal. -/
structure Rightful (s : AckState) (e : AckPacket × ℤ) : Prop where
  qos1 : ∀ k m, (k, m) ∈ s.window.queues.entries → k ∉ (s.step e).window.queues.keys →
    m.delivery.publish.qos = .atLeastOnce → e.1.kind = .puback ∧ e.1.packetId = k
  qos2 : ∀ k m, (k, m) ∈ s.window.queues.entries → k ∉ (s.step e).window.queues.keys →
    m.delivery.publish.qos = .exactlyOnce → e.1.packetId = k ∧
      (e.1.kind = .pubcomp ∧ (HasPubrec s.received k ∨ Begun w k) ∨ e.1.refuses = true)
  released : ∀ k, s.pubrel e = some k → (∃ m, (k, m) ∈ s.window.queues.entries ∧
    m.delivery.publish.qos = .exactlyOnce) ∧ (Accepted (s.step e).received k ∨ Begun w k)

end

/-- What a client must not send: a PUBACK for a message of QoS 2, a PUBCOMP for a message of QoS 1 or
before the PUBREC, a PUBREC without a message of QoS 2, and a refusal, unless it has had the message. -/
def Proper (s : AckState) (e : AckPacket × ℤ) : Prop :=
  match e.1.kind with
  | .puback => ∀ m, (e.1.packetId, m) ∈ s.window.queues.entries →
      m.delivery.publish.qos ≠ .exactlyOnce
  | .pubcomp => ∀ m, (e.1.packetId, m) ∈ s.window.queues.entries →
      m.delivery.publish.qos ≠ .atLeastOnce ∧
        (m.delivery.publish.qos = .exactlyOnce → m.status = .unComplete)
  | .pubrec => ∃ m, (e.1.packetId, m) ∈ s.window.queues.entries ∧
      m.delivery.publish.qos = .exactlyOnce ∧ (e.1.refuses = true → m.status = .unComplete)

/-! ## The history -/

section History

variable {l : List AckPacket} {p : AckPacket} {k : PacketId}

theorem kind_of_refuses (h : p.refuses = true) : p.kind = .pubrec := by
  cases p <;> first | rfl | exact nomatch h

theorem hasPubrec_concat :
    HasPubrec (l ++ [p]) k ↔ HasPubrec l k ∨ p.kind = .pubrec ∧ p.packetId = k := by
  unfold HasPubrec
  simp only [mem_append, mem_singleton, or_and_right, exists_or, exists_eq_left]

theorem accepted_concat :
    Accepted (l ++ [p]) k ↔
      Accepted l k ∨ p.kind = .pubrec ∧ p.packetId = k ∧ p.refuses = false := by
  unfold Accepted
  simp only [mem_append, mem_singleton, or_and_right, exists_or, exists_eq_left]

theorem Accepted.hasPubrec (h : Accepted l k) : HasPubrec l k := by
  obtain ⟨p, hp, hkind, hid, -⟩ := h
  exact ⟨p, hp, hkind, hid⟩

end History

/-- The status of a message says whether its PUBREC has come. -/
structure Noted (w : OutInflight) (s : AckState) : Prop where
  unComplete : ∀ k m, (k, m) ∈ s.window.queues.entries → HasPubrec s.received k ∨ Begun w k →
    m.status = .unComplete
  accepted : ∀ k m, (k, m) ∈ s.window.queues.entries → m.status = .unComplete →
    Accepted s.received k ∨ Begun w k

theorem noted_init (w : OutInflight) : Noted w { window := w } where
  unComplete := by
    rintro k m hm (⟨p, hp, -⟩ | ⟨m', hm', hstatus⟩)
    · exact nomatch hp
    · rwa [DequeMap.eq_of_mem hm hm']
  accepted k m hm hstatus := .inr ⟨m, hm, hstatus⟩

variable {w : OutInflight} {s : AckState} {e : AckPacket × ℤ}

theorem Noted.remove (h : Noted w s) (hkind : e.1.kind ≠ .pubrec) :
    Noted w ⟨s.window.remove e.1.packetId, s.received ++ [e.1]⟩ where
  unComplete k m hm hpubrec := by
    refine h.unComplete k m (DequeMap.mem_remove.1 hm).1 (hpubrec.imp_left fun hpubrec => ?_)
    exact (hasPubrec_concat.1 hpubrec).resolve_right fun hnew => hkind hnew.1
  accepted k m hm hstatus :=
    (h.accepted k m (DequeMap.mem_remove.1 hm).1 hstatus).imp_left fun hold =>
      accepted_concat.2 (.inl hold)

theorem Noted.updateStatus (h : Noted w s) (hkind : e.1.kind = .pubrec)
    (hproper : e.1.refuses = true → ∃ m, (e.1.packetId, m) ∈ s.window.queues.entries ∧
      m.status = .unComplete) :
    Noted w ⟨s.window.updateStatus e.1.packetId .unComplete e.2, s.received ++ [e.1]⟩ where
  unComplete k m hm hpubrec := by
    rcases DequeMap.mem_modify.1 hm with ⟨hm, hne⟩ | ⟨m', hm', heq⟩
    · refine h.unComplete k m hm (hpubrec.imp_left fun hpubrec => ?_)
      exact (hasPubrec_concat.1 hpubrec).resolve_right fun hnew => hne hnew.2.symm
    · rw [(Prod.mk.inj heq).2]
      rfl
  accepted k m hm hstatus := by
    rcases DequeMap.mem_modify.1 hm with ⟨hm, -⟩ | ⟨m', hm', heq⟩
    · exact (h.accepted k m hm hstatus).imp_left fun hold => accepted_concat.2 (.inl hold)
    · obtain ⟨rfl, -⟩ := Prod.mk.inj heq
      cases hrefuses : e.1.refuses with
      | false => exact .inl (accepted_concat.2 (.inr ⟨hkind, rfl, hrefuses⟩))
      | true =>
        obtain ⟨m₀, hm₀, hstatus₀⟩ := hproper hrefuses
        exact (h.accepted _ m₀ hm₀ hstatus₀).imp_left fun hold => accepted_concat.2 (.inl hold)

/-! ## The steps -/

theorem processAck_of_ne (hkind : e.1.kind ≠ .pubrec) :
    s.window.processAck e.1 e.2 = (s.window.remove e.1.packetId, none) := by
  rw [OutInflight.processAck_eq]
  cases hk : e.1.kind with
  | pubrec => exact absurd hk hkind
  | _ => rfl

theorem processAck_of_eq (hkind : e.1.kind = .pubrec) :
    s.window.processAck e.1 e.2 =
      (s.window.updateStatus e.1.packetId .unComplete e.2, some e.1.packetId) := by
  rw [OutInflight.processAck_eq, hkind]

theorem Noted.step (h : Noted w s) (hproper : s.Proper e) : Noted w (s.step e) := by
  unfold AckState.step
  by_cases hkind : e.1.kind = .pubrec
  · rw [processAck_of_eq hkind]
    unfold Proper at hproper
    rw [hkind] at hproper
    obtain ⟨m, hm, -, hstatus⟩ := hproper
    exact h.updateStatus hkind fun hrefuses => ⟨m, hm, hstatus hrefuses⟩
  · rw [processAck_of_ne hkind]
    exact h.remove hkind

theorem gone_iff (hkind : e.1.kind ≠ .pubrec) {k : PacketId} {m : OutInflightMessage}
    (hm : (k, m) ∈ s.window.queues.entries) :
    k ∉ (s.step e).window.queues.keys ↔ e.1.packetId = k := by
  unfold step
  rw [processAck_of_ne hkind]
  constructor
  · intro hgone
    by_contra hne
    exact hgone (DequeMap.mem_keys.2 ⟨m, DequeMap.mem_remove.2 ⟨hm, Ne.symm hne⟩⟩)
  · rintro rfl
    exact DequeMap.notMem_keys_remove _ _

theorem pubrel_of_ne (hkind : e.1.kind ≠ .pubrec) (k : PacketId) : s.pubrel e ≠ some k := by
  unfold pubrel
  rw [processAck_of_ne hkind]
  exact nofun

theorem rightful_puback_iff (hkind : e.1.kind = .puback) :
    Rightful w s e ↔ ∀ m, (e.1.packetId, m) ∈ s.window.queues.entries →
      m.delivery.publish.qos ≠ .exactlyOnce := by
  have hne : e.1.kind ≠ .pubrec := by
    rw [hkind]
    decide
  constructor
  · intro h m hm hqos
    rcases (h.qos2 _ m hm ((gone_iff hne hm).2 rfl) hqos).2 with ⟨hcomp, -⟩ | hrefuses
    · exact nomatch hkind.symm.trans hcomp
    · exact hne (kind_of_refuses hrefuses)
  · intro h
    refine ⟨fun k m hm hgone _ => ⟨hkind, (gone_iff hne hm).1 hgone⟩, fun k m hm hgone hqos => ?_,
      fun k hk => absurd hk (pubrel_of_ne hne k)⟩
    obtain rfl := (gone_iff hne hm).1 hgone
    exact absurd hqos (h m hm)

theorem Noted.rightful_pubcomp_iff (h : Noted w s) (hkind : e.1.kind = .pubcomp) :
    Rightful w s e ↔ ∀ m, (e.1.packetId, m) ∈ s.window.queues.entries →
      m.delivery.publish.qos ≠ .atLeastOnce ∧
        (m.delivery.publish.qos = .exactlyOnce → m.status = .unComplete) := by
  have hne : e.1.kind ≠ .pubrec := by
    rw [hkind]
    decide
  constructor
  · intro hright m hm
    have hgone := (gone_iff hne hm).2 rfl
    refine ⟨fun hqos => ?_, fun hqos => ?_⟩
    · exact nomatch hkind.symm.trans (hright.qos1 _ m hm hgone hqos).1
    · rcases (hright.qos2 _ m hm hgone hqos).2 with ⟨-, hpubrec⟩ | hrefuses
      · exact h.unComplete _ m hm hpubrec
      · exact absurd (kind_of_refuses hrefuses) hne
  · intro hproper
    refine ⟨fun k m hm hgone hqos => ?_, fun k m hm hgone hqos => ?_,
      fun k hk => absurd hk (pubrel_of_ne hne k)⟩
    · obtain rfl := (gone_iff hne hm).1 hgone
      exact absurd hqos (hproper m hm).1
    · obtain rfl := (gone_iff hne hm).1 hgone
      have haccepted := h.accepted _ m hm ((hproper m hm).2 hqos)
      exact ⟨rfl, .inl ⟨hkind, haccepted.imp_left Accepted.hasPubrec⟩⟩

theorem Noted.rightful_pubrec_iff (h : Noted w s) (hkind : e.1.kind = .pubrec) :
    Rightful w s e ↔ ∃ m, (e.1.packetId, m) ∈ s.window.queues.entries ∧
      m.delivery.publish.qos = .exactlyOnce ∧ (e.1.refuses = true → m.status = .unComplete) := by
  have hkeys {k : PacketId} {m : OutInflightMessage} (hm : (k, m) ∈ s.window.queues.entries) :
      k ∈ (s.step e).window.queues.keys := by
    unfold AckState.step
    rw [processAck_of_eq hkind]
    change k ∈ (s.window.queues.modify _ _).keys
    rw [DequeMap.keys_modify]
    exact DequeMap.mem_keys_of_mem hm
  have hpubrel : s.pubrel e = some e.1.packetId := by
    unfold pubrel
    rw [processAck_of_eq hkind]
  constructor
  · intro hright
    obtain ⟨⟨m, hm, hqos⟩, haccepted⟩ := hright.released _ hpubrel
    refine ⟨m, hm, hqos, fun hrefuses => h.unComplete _ m hm (haccepted.imp_left fun hnew => ?_)⟩
    rcases accepted_concat.1 hnew with hold | ⟨-, -, hnot⟩
    · exact hold.hasPubrec
    · exact nomatch hrefuses.symm.trans hnot
  · rintro ⟨m, hm, hqos, hstatus⟩
    refine ⟨fun k m hm hgone => absurd (hkeys hm) hgone, fun k m hm hgone => absurd (hkeys hm) hgone,
      fun k hk => ?_⟩
    obtain rfl : e.1.packetId = k := Option.some.inj (hpubrel.symm.trans hk)
    refine ⟨⟨m, hm, hqos⟩, ?_⟩
    cases hrefuses : e.1.refuses with
    | false => exact .inl (accepted_concat.2 (.inr ⟨hkind, rfl, hrefuses⟩))
    | true =>
      exact (h.accepted _ m hm (hstatus hrefuses)).imp_left fun hold =>
        accepted_concat.2 (.inl hold)

theorem Noted.rightful_iff_proper (h : Noted w s) (e : AckPacket × ℤ) :
    Rightful w s e ↔ s.Proper e := by
  unfold Proper
  cases hkind : e.1.kind with
  | puback => exact rightful_puback_iff hkind
  | pubrec => exact h.rightful_pubrec_iff hkind
  | pubcomp => exact h.rightful_pubcomp_iff hkind

/-- Whatever is in the window and whatever the client sends: the exchanges are completed as they should
be exactly if every packet is a proper one. -/
theorem rightful_iff (w : OutInflight) (packets : List (AckPacket × ℤ)) :
    Along step (Rightful w) { window := w } packets ↔ Along step Proper { window := w } packets :=
  along_congr (Noted w) (fun _ _ hs hproper => hs.step hproper)
    (fun _ e hs => hs.rightful_iff_proper e) (noted_init w) packets

/-- A PUBACK completes a message of QoS 2 that the client has not received, and a PUBREC that refuses a
message is answered with a PUBREL. -/
theorem completed_by_puback :
    let k : PacketId := V5.packetIdOne
    let w := (OutInflight.new 16 0 0).pushBack true
      ⟨⟨0, ⟨false, false, .exactlyOnce, "t", some k, [], none⟩⟩, .unReceived, 0⟩
    w.queues.keys = [k] ∧ (w.processAck (.v3PublishAck k) 1).1.queues.keys = [] ∧
      (w.processAck (.v5PublishReceived { packetId := k, reasonCode := .quotaExceeded }) 1).2 =
        some k := by
  decide +kernel

end AckState

end FerroMq
