import FerroMq.Codec.V5.EncodeSpec
import FerroMq.Codec.V5.ReadBack
import FerroMq.Codec.V5.Accepted
import FerroMq.Codec.Stream

/-!
# The MQTT 5 codec reads what it writes

What `Codec::encode` writes is a frame with the content of the packet, possibly with a shorter error description
(`Codec.encode_ok`), and `Codec::decode` returns the packet of a frame (`Codec.decode_frame`).
-/

set_option linter.dupNamespace false

namespace FerroMq.Codec.V5

open Lib List

/-! ## Trimmed packets -/

theorem Diag.TrimOf.fits {full d : Diag} (h : full.TrimOf d) (hf : full.Fits) : d.Fits := by
  refine ⟨fun p hp => hf.1 p (h.isPrefix.subset hp), ?_⟩
  rcases h.reasonString with hr | hr
  · rw [hr]
    exact hf.2
  · rw [hr]
    exact fitsOpt_none

theorem Diag.TrimOf.length_lt {full d : Diag} (h : full.TrimOf d) (hne : d ≠ full) :
    d.wire.length < full.wire.length := by
  obtain ⟨extra, hextra⟩ := h.isPrefix
  obtain ⟨ups, reason⟩ := d
  obtain ⟨fullUps, fullReason⟩ := full
  simp only at hextra
  subst hextra
  have hups : (userWire (ups ++ extra)).length = (userWire ups).length + (userWire extra).length := by
    simp [userWire]
  simp only [Diag.wire, length_append, hups]
  cases extra with
  | nil =>
    rcases h.reasonString with hr | hr
    · exact absurd (by simpa using hr) hne
    · simp only at hr
      subst hr
      cases fullReason with
      | none => exact absurd (by simp) hne
      | some reason => simp [userWire]
  | cons p extra =>
    have hr : reason = none := h.reasonString_of_dropped (by simp)
    subst hr
    simp [userWire]
    omega

theorem length_withLen_lt {props props' : Bytes} (h : props.length < props'.length) :
    (withLen props).length < (withLen props').length := by
  have hmono : (varLen props.length).length ≤ (varLen props'.length).length := by
    unfold varLen
    split_ifs <;> simp <;> omega
  rw [withLen, withLen, length_append, length_append]
  omega

namespace Packet

theorem TrimOf.fits {p p' : Packet} (h : p.TrimOf p') (hf : p.Fits) : p'.Fits := by
  cases p
  case connect | publish | subscribe | unsubscribe | pingRequest | pingResponse => exact h ▸ hf
  case connectAck a =>
    obtain ⟨d, hd, rfl⟩ := h
    exact { hf with diag := hd.fits hf.diag }
  case disconnect a =>
    obtain ⟨d, hd, rfl⟩ := h
    exact { hf with diag := hd.fits hf.diag }
  case auth a =>
    obtain ⟨d, hd, rfl⟩ := h
    exact { hf with diag := hd.fits hf.diag }
  all_goals
    obtain ⟨d, hd, rfl⟩ := h
    exact hd.fits hf

theorem withDiag_diag {p : Packet} {full : Diag} (h : p.diag = some full) :
    p.withDiag full = p := by
  cases p <;> cases h <;> rfl

theorem length_wire_withDiag_lt {p : Packet} {full d : Diag} (h : p.diag = some full)
    (hlt : d.wire.length < full.wire.length) : (p.withDiag d).wire.length < p.wire.length := by
  have hfixed (head fixed : Bytes) :
      (head ++ withLen (fixed ++ d.wire)).length < (head ++ withLen (fixed ++ full.wire)).length := by
    rw [length_append, length_append]
    exact Nat.add_lt_add_left (length_withLen_lt (by simpa using hlt)) _
  have hack (pid : NonZeroU16) (code : UInt8) :
      (ackWire pid code d).length < (ackWire pid code full).length := by
    have := length_withLen_lt hlt
    simp only [ackWire, length_append]
    omega
  have hstatus {α : Type} [PrimEnum α] (pid : NonZeroU16) (status : List α) :
      (statusAckWire pid d status).length < (statusAckWire pid full status).length := by
    have := length_withLen_lt hlt
    simp only [statusAckWire, length_append]
    omega
  cases p <;> cases h
  case connectAck a => exact hfixed [a.sessionPresent.toUInt8, toU8 a.reasonCode] a.fixedWire
  case publishAck | publishReceived | publishRelease | publishComplete => exact hack _ _
  case subscribeAck | unsubscribeAck => exact hstatus _ _
  case disconnect a => exact hfixed [toU8 a.reasonCode] a.fixedWire
  case auth a => exact hfixed [toU8 a.reasonCode] a.fixedWire

theorem TrimOf.eq_of_length {p p' : Packet} (h : p.TrimOf p') (hlen : p'.wire.length = p.wire.length) :
    p' = p := by
  unfold TrimOf at h
  rcases hd : p.diag with _ | full
  · rw [hd] at h
    exact h
  · rw [hd] at h
    obtain ⟨d, htrim, rfl⟩ := h
    by_contra hne
    have hlt := htrim.length_lt fun heq => hne (heq ▸ withDiag_diag hd)
    exact absurd hlen (length_wire_withDiag_lt hd hlt).ne

end Packet

/-! ## Frames -/

namespace Packet

def frame (p : Packet) : Bytes := Framing.frame p.firstByte p.wire

variable {mode : Overflow} {p : Packet}

theorem spec_encode {limit n : ℕ} (h : p.encodedSize mode limit = .ok n) (hn : n ≤ maxPacketSize) :
    Enc.Spec (p.encode mode n) (p.trimmed limit).Fits (p.trimmed limit).SubIdsOk (p.trimmed limit).frame := by
  obtain ⟨hcontent, hlen⟩ := spec_encodeContent h hn
  have hwrite : Enc.Spec (do Enc.putU8 p.firstByte; writeVariableLength n; p.encodeContent mode n)
      (p.trimmed limit).Fits (p.trimmed limit).SubIdsOk (p.trimmed limit).frame := by
    refine ((Enc.Strict.putU8 _).andThen ((strict_writeVariableLength hn).andThen hcontent)).congr
      Iff.rfl (fun _ => Iff.rfl) fun hf => ?_
    rw [frame, Framing.frame, hlen hf, firstByte_trimmed]
    rfl
  cases p
  case pingRequest | pingResponse =>
    cases h
    exact Enc.Strict.putSlice _
  all_goals exact hwrite

theorem length_wire_trimmed {limit n : ℕ}
    (h : p.encodedSize mode limit = .ok n) (hn : n ≤ maxPacketSize) (hf : (p.trimmed limit).Fits) :
    (p.trimmed limit).wire.length = n :=
  (spec_encodeContent h hn).2 hf

def isPing : Packet → Bool
  | .pingRequest | .pingResponse => true
  | _ => false

theorem isPing_eq_false {limit n : ℕ}
    (h : p.encodedSize mode limit = .ok n) (hn : 0 < n) : p.isPing = false := by
  cases p
  case pingRequest | pingResponse =>
    cases h
    exact absurd hn (lt_irrefl 0)
  all_goals rfl

theorem encode_panics (mode : Overflow) {n : ℕ} (hp : p.isPing = false)
    (hn : maxPacketSize < n) (buf : Bytes) : ∃ buf', p.encode mode n buf = (.error .panic, buf') := by
  have hlong : writeVariableLength n = Enc.panic := by
    have : maxPacketSize = 268435455 := rfl
    unfold writeVariableLength
    rw [if_neg (by omega), if_neg (by omega), if_neg (by omega), if_neg (by omega)]
  have hpanic : (do Enc.putU8 p.firstByte; writeVariableLength n; p.encodeContent mode n :
      Enc EncodeError Unit) buf = (.error .panic, buf ++ [p.firstByte]) := by
    rw [hlong]
    rfl
  cases p
  case pingRequest | pingResponse => cases hp
  all_goals exact ⟨_, hpanic⟩

end Packet

namespace Codec

theorem mod_maxSize (c : Codec) {n : ℕ} (h : n ≤ c.maxSize) : n % 2 ^ 32 = n := by
  refine Nat.mod_eq_of_lt (h.trans_lt ?_)
  unfold maxSize
  split_ifs
  · exact c.maxOutSize.toNat_lt
  · decide

variable {mode : Overflow} {c : Codec} {p : Packet}

theorem encode_of_size {n : ℕ} (h : (c.outgoing p).encodedSize mode c.maxSize = .ok n) (hn : n ≤ c.maxSize) :
    c.encode mode p = (c.outgoing p).encode mode n := by
  funext buf
  rw [encode, h]
  change (if n > c.maxSize then _ else _ : Enc EncodeError Unit) buf = _
  rw [if_neg (not_lt.2 hn), c.mod_maxSize hn]

theorem encode_of_limit {n : ℕ} (h : (c.outgoing p).encodedSize mode c.maxSize = .ok n) (hn : c.maxSize < n) :
    c.encode mode p = Enc.fail (.overMaxPacketSize (n % 2 ^ 32) c.maxSize) := by
  funext buf
  rw [encode, h]
  change (if n > c.maxSize then _ else _ : Enc EncodeError Unit) buf = _
  rw [if_pos hn]

theorem encode_ok_iff {buf buf' : Bytes} : c.encode mode p buf = (.ok (), buf') ↔
      ∃ n, (c.outgoing p).encodedSize mode c.maxSize = .ok n ∧ n ≤ c.maxSize ∧ n ≤ maxPacketSize ∧
        ((c.outgoing p).trimmed c.maxSize).Fits ∧ buf' = buf ++ ((c.outgoing p).trimmed c.maxSize).frame := by
  constructor
  · intro h
    rcases hsize : (c.outgoing p).encodedSize mode c.maxSize with f | n
    · rw [encode, hsize] at h
      cases h
    by_cases hlimit : n ≤ c.maxSize
    · rw [encode_of_size hsize hlimit] at h
      by_cases hn : n ≤ maxPacketSize
      · obtain ⟨hf, hbuf⟩ := (Packet.spec_encode hsize hn).emits.of_ok h
        exact ⟨n, rfl, hlimit, hn, hf, hbuf⟩
      · have hping := Packet.isPing_eq_false hsize (by omega)
        obtain ⟨buf'', hpanic⟩ := Packet.encode_panics mode hping (not_le.1 hn) buf
        rw [hpanic] at h
        cases h
    · rw [encode_of_limit hsize (not_le.1 hlimit)] at h
      cases h
  · rintro ⟨n, hsize, hlimit, hn, hf, rfl⟩
    rw [encode_of_size hsize hlimit]
    exact (Packet.spec_encode hsize hn).run hf buf

theorem encode_ok {buf buf' : Bytes} (h : c.encode mode p buf = (.ok (), buf')) :
    ∃ n p', (c.outgoing p).encodedSize mode c.maxSize = .ok n ∧ n ≤ maxPacketSize ∧
      (c.outgoing p).TrimOf p' ∧ p'.Fits ∧ p'.wire.length = n ∧ buf' = buf ++ p'.frame := by
  obtain ⟨n, hsize, -, hn, hf, hbuf⟩ := encode_ok_iff.1 h
  exact ⟨n, _, hsize, hn, Packet.trimOf_trimmed _ _, hf, Packet.length_wire_trimmed hsize hn hf, hbuf⟩

def after (d : Codec) (p : Packet) : Codec :=
  { d with state := .frameHeader, noProblemInfo := noteConnect d.noProblemInfo p }

theorem decode_frame {d : Codec} (hd : d.state = .frameHeader) (hf : p.Fits)
    (hr : p.Readable) (hlen : p.wire.length ≤ maxPacketSize)
    (hin : Framing.SizeOk d.maxInSize.toNat p.wire.length) (rest : Bytes) : d.decode (p.frame ++ rest) =
      (.ok (some (p.normal, p.wire.length)), d.after p.normal, rest) := by
  obtain ⟨left, hp⟩ := Packet.returns_decodePacket hf hr hlen
  simp only [decode, hd, Packet.frame, Framing.decode_frame hlen hin, hp]
  rfl

theorem decode_frame_rejected {d : Codec} (hd : d.state = .frameHeader) (hf : p.Fits)
    (hr : ¬ p.Readable) (hlen : p.wire.length ≤ maxPacketSize)
    (hin : Framing.SizeOk d.maxInSize.toNat p.wire.length) (rest : Bytes) :
    (d.decode (p.frame ++ rest)).1 = .error (.err p.rejection) := by
  have hp := Packet.rejects_decodePacket hf hr hlen
  rw [Dec.Rejects] at hp
  simp only [decode, hd, Packet.frame, Framing.decode_frame hlen hin, hp]

end Codec

/-! ## The round trip -/

theorem publishAckSize_ok_iff {mode : Overflow} {ups : UserProperties} {reason : Option String}
    {limit : ℕ} :
    (∃ n, publishAckSize mode ups reason limit = .ok n) ↔ mode = .wrapping ∨ 7 ≤ limit := by
  cases mode with
  | checked =>
    constructor
    · rintro ⟨n, h⟩
      obtain ⟨l₁, h₁, h⟩ := bind_eq_ok_iff.1 h
      obtain ⟨l₂, h₂, -⟩ := bind_eq_ok_iff.1 h
      rw [subU32_checked] at h₁ h₂
      exact Or.inr (by omega)
    · intro h
      have h7 : 7 ≤ limit := h.resolve_left (by decide)
      exact ⟨_, bind_eq_ok_iff.2 ⟨_, subU32_of_le (by omega),
        bind_eq_ok_iff.2 ⟨_, subU32_of_le (by omega), rfl⟩⟩⟩
  | wrapping =>
    obtain ⟨l₁, h₁⟩ := subU32_wrapping limit 3
    obtain ⟨l₂, h₂⟩ := subU32_wrapping l₁ 4
    exact iff_of_true ⟨_, bind_eq_ok_iff.2 ⟨l₁, h₁, bind_eq_ok_iff.2 ⟨l₂, h₂, rfl⟩⟩⟩ (Or.inl rfl)

theorem SubscribeAck.encodedSize_ok (mode : Overflow) {a : SubscribeAck} {limit : ℕ}
    (hlimit : limit < 2 ^ 32) (hfit : 2 + a.status.length ≤ limit) :
    ∃ n, a.encodedSize mode limit = .ok n := by
  have hlen : ¬ a.status.length > 2 ^ 32 - 1 - 2 := by omega
  have h₁ : (subU32 mode limit 2 : Except (Fault EncodeError) ℕ) = .ok (limit - 2) :=
    subU32_of_le (by omega)
  have h₂ : (subU32 mode (limit - 2) a.status.length : Except (Fault EncodeError) ℕ) =
      .ok (limit - 2 - a.status.length) := subU32_of_le (by omega)
  rw [SubscribeAck.encodedSize, if_neg hlen]
  exact ⟨_, bind_eq_ok_iff.2 ⟨_, h₁, bind_eq_ok_iff.2 ⟨_, h₂, rfl⟩⟩⟩

namespace Packet

def isPublishAck : Packet → Bool
  | .publishAck _ | .publishReceived _ | .publishRelease _ | .publishComplete _ => true
  | _ => false

/-- The size of a packet can be computed under any limit that the packet fits, except that the
acknowledgements of a PUBLISH take seven from the limit without looking. -/
theorem encodedSize_ok_iff {mode : Overflow} {p : Packet} {limit : ℕ} (hlimit : limit < 2 ^ 32)
    (hfit : p.wire.length ≤ limit) :
    (∃ n, p.encodedSize mode limit = .ok n) ↔
      mode = .wrapping ∨ p.isPublishAck = false ∨ 7 ≤ limit := by
  cases p
  case publishAck | publishReceived | publishRelease | publishComplete =>
    refine publishAckSize_ok_iff.trans ?_
    simp [isPublishAck]
  case subscribeAck a =>
    refine iff_of_true (SubscribeAck.encodedSize_ok mode hlimit ?_) (Or.inr (Or.inl rfl))
    rw [wire, SubscribeAck.wire, length_statusAckWire] at hfit
    omega
  all_goals exact iff_of_true ⟨_, rfl⟩ (Or.inr (Or.inl rfl))

end Packet

namespace Codec

theorem maxSize_lt (c : Codec) : c.maxSize < 2 ^ 32 := by
  unfold maxSize
  split_ifs
  · exact c.maxOutSize.toNat_lt
  · decide

/-- What `c` writes for `p`, `d` reads back as `p` to the last byte. -/
def RoundTrips (mode : Overflow) (c d : Codec) (p : Packet) : Prop :=
  ∃ bytes, (∀ buf, c.encode mode p buf = (.ok (), buf ++ bytes)) ∧
    ∃ d', d.decode bytes = (.ok (some (p, p.wire.length)), d', [])

/-- The encoder has no reason to leave anything out of `p`. -/
structure KeepsAll (mode : Overflow) (c : Codec) (p : Packet) : Prop where
  outgoing_eq : c.outgoing p = p
  fits : p.wire.length ≤ c.maxSize
  size_eq : ∀ n, p.encodedSize mode c.maxSize = .ok n → n = p.wire.length

/-- `d` is ready for a packet of the given size. -/
structure Ready (d : Codec) (size : ℕ) : Prop where
  state_eq : d.state = .frameHeader
  size_ok : Framing.SizeOk d.maxInSize.toNat size

theorem roundTrips_iff {mode : Overflow} {c d : Codec} {p : Packet} (hp : p.WellFormed)
    (hc : c.KeepsAll mode p) (hd : d.Ready p.wire.length) :
    RoundTrips mode c d p ↔ p.wire.length ≤ maxPacketSize ∧
      (mode = .wrapping ∨ p.isPublishAck = false ∨ 7 ≤ c.maxSize) := by
  rw [← Packet.encodedSize_ok_iff c.maxSize_lt hc.fits]
  constructor
  · rintro ⟨bytes, hencode, -⟩
    obtain ⟨n, p', hsize, hn, -⟩ := encode_ok (hencode [])
    rw [hc.outgoing_eq] at hsize
    exact ⟨hc.size_eq n hsize ▸ hn, n, hsize⟩
  · rintro ⟨hlen, n, hsize⟩
    obtain rfl := hc.size_eq n hsize
    have htrim := p.trimOf_trimmed c.maxSize
    have hfits := htrim.fits hp.fits
    have hkept := htrim.eq_of_length (Packet.length_wire_trimmed hsize hlen hfits)
    refine ⟨p.frame, fun buf => ?_, d.after p, ?_⟩
    · rw [encode_ok_iff, hc.outgoing_eq]
      exact ⟨_, hsize, hc.fits, hlen, hfits, by rw [hkept]⟩
    · have := decode_frame hd.state_eq hp.fits hp.readable hlen hd.size_ok []
      rwa [append_nil, hp.normal_eq] at this

/-- A decoded packet is written and read again if its content has a length that can be written, and
it has if the body that was decoded has. -/
theorem roundTrips_decoded_iff {mode : Overflow} {firstByte : UInt8} {body rest : Bytes} {p : Packet}
    (h : decodePacket firstByte body = .ok (p, rest))
    (hkeep : ∀ n, p.encodedSize mode maxPacketSize = .ok n → n = p.wire.length) :
    (RoundTrips mode {} {} p ↔ p.wire.length ≤ maxPacketSize) ∧
      (body.length ≤ maxPacketSize → p.wire.length ≤ maxPacketSize) := by
  obtain ⟨hp, hle⟩ := (safe_decodePacket firstByte body).of_ok h
  refine ⟨⟨?_, fun hlen => ?_⟩, fun hbody => hle.trans (max_le (by decide) hbody)⟩
  · rintro ⟨bytes, hencode, -⟩
    obtain ⟨n, p', hsize, hn, -⟩ := encode_ok (hencode [])
    exact hkeep n hsize ▸ hn
  · have hc : KeepsAll mode {} p := ⟨rfl, hlen, hkeep⟩
    exact (roundTrips_iff hp hc ⟨rfl, Or.inl rfl⟩).2 ⟨hlen, Or.inr (Or.inr (by decide))⟩

/-- A well-formed packet that fits without leaving anything out is written and read back exactly if
its length can be written in a header and, where overflow is checked, the limit is not too small for
an acknowledgement; and what was decoded can be written and read again. -/
theorem codec_roundTrips_iff (mode : Overflow) :
    (∀ (c d : Codec) (p : Packet), p.WellFormed → c.KeepsAll mode p → d.Ready p.wire.length →
      (RoundTrips mode c d p ↔ p.wire.length ≤ maxPacketSize ∧
        (mode = .wrapping ∨ p.isPublishAck = false ∨ 7 ≤ c.maxSize))) ∧
    ∀ (firstByte : UInt8) (body rest : Bytes) (p : Packet),
      decodePacket firstByte body = .ok (p, rest) →
      (∀ n, p.encodedSize mode maxPacketSize = .ok n → n = p.wire.length) →
      (RoundTrips mode {} {} p ↔ p.wire.length ≤ maxPacketSize) ∧
        (body.length ≤ maxPacketSize → p.wire.length ≤ maxPacketSize) :=
  ⟨fun _ _ _ => roundTrips_iff, fun _ _ _ _ => roundTrips_decoded_iff⟩

theorem codec_roundTrips_iff_puback :
    RoundTrips .checked {} {} (.publishAck {}) ∧
      (RoundTrips .checked {} {} (.publishAck {}) ↔
        (Packet.publishAck {}).wire.length ≤ maxPacketSize) :=
  ⟨((codec_roundTrips_iff .checked).1 {} {} (.publishAck {})
      ⟨⟨nofun, fitsOpt_none⟩, trivial, rfl⟩
      ⟨rfl, by decide, fun n h => by cases h; rfl⟩ ⟨rfl, Or.inl rfl⟩).2
      ⟨by decide, Or.inr (Or.inr (by decide))⟩,
    ((codec_roundTrips_iff .checked).2 PacketType.puback [0, 1] [] (.publishAck {}) (by rfl)
      fun n h => by cases h; rfl).1⟩

def longPublish : Publish where
  dup := false
  retain := false
  qos := .atMostOnce
  topic := "t"
  packetId := none
  payload := List.replicate maxPacketSize 0
  properties := some {}

theorem longPublish_fits : Publish.Fits longPublish where
  topic := show (utf8 "t").length ≤ 65535 by decide
  packetId := by simp [longPublish, Publish.IdOk]
  properties := ⟨fitsOpt_none, fitsOpt_none, fitsOpt_none, nofun,
    nofun⟩

theorem length_wire_longPublish : (Publish.wire longPublish).length = maxPacketSize + 4 := by
  have hpayload : longPublish.payload.length = maxPacketSize := length_replicate
  rw [Publish.wire, length_append, hpayload, Nat.add_comm]
  rfl

/-- Two ways in which a packet that fits is not written: an empty PUBACK under a limit of four makes
the computation of its size underflow, and the length of a long packet under a large limit makes the
encoder panic. -/
theorem not_roundTrips :
    ((Packet.publishAck {}).WellFormed ∧ (new 0 4).KeepsAll .checked (.publishAck {}) ∧
      Ready {} (Packet.publishAck {}).wire.length ∧
      ¬ RoundTrips .checked (new 0 4) {} (.publishAck {})) ∧
    ∀ mode, (Packet.publish longPublish).WellFormed ∧
      (new 0 0xFFFFFFFF).KeepsAll mode (.publish longPublish) ∧
      Ready {} (Packet.publish longPublish).wire.length ∧
      ¬ RoundTrips mode (new 0 0xFFFFFFFF) {} (.publish longPublish) := by
  constructor
  · have hp : (Packet.publishAck {}).WellFormed :=
      ⟨⟨nofun, fitsOpt_none⟩, trivial, rfl⟩
    have hc : (new 0 4).KeepsAll .checked (.publishAck {}) :=
      ⟨rfl, by decide, fun n h => by cases h⟩
    have hd : Ready {} (Packet.publishAck {}).wire.length := ⟨rfl, Or.inl rfl⟩
    refine ⟨hp, hc, hd, ?_⟩
    rw [roundTrips_iff hp hc hd]
    decide
  · intro mode
    have hlen : (Packet.publish longPublish).wire.length = maxPacketSize + 4 :=
      length_wire_longPublish
    have hp : (Packet.publish longPublish).WellFormed := ⟨longPublish_fits, trivial, rfl⟩
    have hc : (new 0 0xFFFFFFFF).KeepsAll mode (.publish longPublish) := by
      refine ⟨rfl, ?_, fun n h => ?_⟩
      · rw [hlen]
        decide
      · have hn : Publish.encodedSize longPublish = n := Except.ok.inj h
        rw [← hn]
        exact Publish.encodedSize_eq longPublish_fits (by decide)
    have hd : Ready {} (Packet.publish longPublish).wire.length := ⟨rfl, Or.inl rfl⟩
    refine ⟨hp, hc, hd, ?_⟩
    rw [roundTrips_iff hp hc hd, hlen]
    exact fun h => absurd h.1 (by decide)

/-! ## Encoding under a limit -/

def barePublish : Publish where
  dup := false
  retain := false
  qos := .atMostOnce
  topic := "t"
  packetId := none
  payload := []
  properties := none

/-- The packet of the frame that `encode` writes. -/
def sent (c : Codec) (p : Packet) : Packet := (c.outgoing p).trimmed c.maxSize

/-- What `encode` has written, packet by packet, is received in this order, however the stream is cut. -/
theorem receive_encoded (mode : Overflow) (c d : Codec) (ps : List Packet) (chunks : List Bytes)
    (hps : ∀ p ∈ ps, (c.encode mode p []).1 = .ok () ∧ (c.sent p).Readable ∧
      Framing.SizeOk d.maxInSize.toNat (c.sent p).wire.length)
    (hd : d.state = .frameHeader)
    (hchunks : chunks.flatten = ps.foldl (fun buf p => (c.encode mode p buf).2) []) :
    Poll.receive decode (fun d => Framing.weight d.state) d [] chunks =
      (ps.map fun p => ((c.sent p).normal, (c.sent p).wire.length),
        .waiting (ps.foldl (fun d p => d.after (c.sent p).normal) d) []) := by
  have hinc : Poll.Incremental decode fun d => Framing.weight d.state := by
    rw [decode_eq_extend]
    refine .extend (fun d => Framing.incremental_decode) (fun _ _ _ => rfl) (fun _ _ => rfl) ?_
    rintro - - (_ | _ | _) - <;> rfl
  have hsent (p) (hp : p ∈ ps) : (c.sent p).wire.length ≤ maxPacketSize ∧ (c.sent p).Fits ∧
      ∀ buf, (c.encode mode p buf).2 = buf ++ (c.sent p).frame := by
    obtain ⟨n, hsize, hlimit, hn, hf, -⟩ := encode_ok_iff.1 (Prod.ext (hps p hp).1 rfl)
    refine ⟨(Packet.length_wire_trimmed hsize hn hf).trans_le hn, hf, fun buf => ?_⟩
    rw [encode_ok_iff.2 ⟨n, hsize, hlimit, hn, hf, rfl⟩, sent]
  have hstream : ps.foldl (fun buf p => (c.encode mode p buf).2) [] =
      ps.flatMap fun p => (c.sent p).frame := by
    rw [flatMap_eq_foldl]
    exact foldl_ext _ _ _ fun buf p hp => (hsent p hp).2.2 buf
  refine hinc.receive_frames (R := fun d' => d'.state = .frameHeader ∧ d'.maxInSize = d.maxInSize)
    (fun d' h => ?_) (fun p hp d' h => ⟨?_, fun rest => ?_⟩) ⟨hd, rfl⟩ (hchunks.trans hstream)
  · cases d'
    cases h.1
    rfl
  · exact ⟨rfl, h.2⟩
  · obtain ⟨hn, hf, -⟩ := hsent p hp
    exact decode_frame h.1 hf (hps p hp).2.1 hn (h.2 ▸ (hps p hp).2.2) rest

/-- Two pings in three pieces. -/
theorem receive_encoded_pings :
    Poll.receive decode (fun d => Framing.weight d.state) {} [] [[0xC0], [0, 0xC0], [0]] =
      ([(.pingRequest, 0), (.pingRequest, 0)], .waiting {} []) := by
  refine receive_encoded .checked {} {} [.pingRequest, .pingRequest] _ (fun p hp => ?_) rfl rfl
  obtain rfl : p = .pingRequest := by simpa using hp
  exact ⟨rfl, trivial, Or.inl rfl⟩

end Codec

end FerroMq.Codec.V5
