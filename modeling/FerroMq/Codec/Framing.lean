import FerroMq.Codec.Utils
import FerroMq.Lib.Stream

/-!
# Frames

The two-state machine of both codecs, for an arbitrary `decode_packet`: it reads the first byte and the
remaining length and waits until the body is complete.  It does not depend on how the stream is cut into chunks
(`incremental_decode`) and takes every byte once (`accounts_decode`).
-/

namespace FerroMq.Codec

open Lib List

inductive DecodeState
  | frameHeader
  | frame (fixed : FixedHeader)
  deriving DecidableEq, Repr

namespace Framing

variable {Pkt : Type}

abbrev Answer (Pkt : Type) := Except (Fault DecodeError) (Option (Pkt × ℕ)) × DecodeState × Bytes

/-- The body of a packet.  If `decode_packet` fails, the body is gone but the state stays. -/
def decodeFrame (decodePacket : UInt8 → Dec DecodeError Pkt) (fixed : FixedHeader) (src : Bytes) :
    Answer Pkt :=
  if src.length < fixed.remainingLength then (.ok none, .frame fixed, src)
  else
    match decodePacket fixed.firstByte (src.take fixed.remainingLength) with
    | .ok (packet, _) =>
      (.ok (some (packet, fixed.remainingLength)), .frameHeader, src.drop fixed.remainingLength)
    | .error e => (.error e, .frame fixed, src.drop fixed.remainingLength)

def decodeHeader (decodePacket : UInt8 → Dec DecodeError Pkt) (maxSize : ℕ) (src : Bytes) :
    Answer Pkt :=
  match src with
  | firstByte :: lenSrc =>
    if src.length < 2 then (.ok none, .frameHeader, src)
    else
      match decodeVariableLength lenSrc with
      | .ok (some (remainingLength, consumed)) =>
        if maxSize ≠ 0 ∧ maxSize < remainingLength then
          (.error (.err (.maxSizeExceeded remainingLength maxSize)), .frameHeader, src)
        else
          let src := src.drop (consumed + 1)
          let fixed := { firstByte, remainingLength }
          if src.length < remainingLength then (.ok none, .frame fixed, src)
          else decodeFrame decodePacket fixed src
      | .ok none => (.ok none, .frameHeader, src)
      | .error e => (.error e, .frameHeader, src)
  | [] => (.ok none, .frameHeader, src)

def decode (decodePacket : UInt8 → Dec DecodeError Pkt) (maxSize : ℕ) :
    Poll DecodeState (Pkt × ℕ) (Fault DecodeError)
  | .frameHeader, src => decodeHeader decodePacket maxSize src
  | .frame fixed, src => decodeFrame decodePacket fixed src

variable {decodePacket : UInt8 → Dec DecodeError Pkt} {maxSize : ℕ}

/-! ## What a call does -/

def IsHeader (hdr : Bytes) (fixed : FixedHeader) : Prop :=
  ∃ len, hdr = fixed.firstByte :: len ∧
    Dec.Reads decodeVariableLengthCursor len fixed.remainingLength

def SizeOk (maxSize n : ℕ) : Prop := maxSize = 0 ∨ n ≤ maxSize

variable {fixed : FixedHeader} {src : Bytes} {s' : DecodeState}

theorem decodeFrame_of_lt (h : src.length < fixed.remainingLength) :
    decodeFrame decodePacket fixed src = (.ok none, .frame fixed, src) := if_pos h

theorem decodeFrame_append {body : Bytes} (h : body.length = fixed.remainingLength) (rest : Bytes) :
    decodeFrame decodePacket fixed (body ++ rest) = match decodePacket fixed.firstByte body with
      | .ok (packet, _) => (.ok (some (packet, fixed.remainingLength)), .frameHeader, rest)
      | .error e => (.error e, .frame fixed, rest) := by
  have hlen : ¬ (body ++ rest).length < fixed.remainingLength := by
    rw [length_append]
    omega
  rw [decodeFrame, if_neg hlen, ← h, take_left, drop_left]

theorem decode_header {hdr : Bytes} (h : IsHeader hdr fixed)
    (hmax : SizeOk maxSize fixed.remainingLength) (rest : Bytes) :
    decode decodePacket maxSize .frameHeader (hdr ++ rest) = decodeFrame decodePacket fixed rest := by
  obtain ⟨len, rfl, hreads⟩ := h
  have hne : len ≠ [] := by
    rintro rfl
    cases hreads.run
  have hlen : ¬ (fixed.firstByte :: (len ++ rest)).length < 2 := by
    have := length_pos_of_ne_nil hne
    rw [length_cons, length_append]
    omega
  have hsize : ¬ (maxSize ≠ 0 ∧ maxSize < fixed.remainingLength) := by
    unfold SizeOk at hmax
    omega
  rw [cons_append, decode, decodeHeader, if_neg hlen, decodeVariableLength_append hreads]
  simp only [if_neg hsize, drop_succ_cons, drop_left]
  split_ifs with hshort
  · exact (decodeFrame_of_lt hshort).symm
  · rfl

def frame (firstByte : UInt8) (body : Bytes) : Bytes :=
  firstByte :: (varLen body.length ++ body)

theorem decode_frame {firstByte : UInt8} {body : Bytes} (hlen : body.length ≤ maxPacketSize)
    (hmax : SizeOk maxSize body.length) (rest : Bytes) :
    decode decodePacket maxSize .frameHeader (frame firstByte body ++ rest) =
      match decodePacket firstByte body with
      | .ok (packet, _) => (.ok (some (packet, body.length)), .frameHeader, rest)
      | .error e => (.error e, .frame ⟨firstByte, body.length⟩, rest) := by
  have hhdr : IsHeader (firstByte :: varLen body.length) ⟨firstByte, body.length⟩ :=
    ⟨_, rfl, reads_decodeVariableLengthCursor hlen⟩
  have hframe : frame firstByte body ++ rest = (firstByte :: varLen body.length) ++ (body ++ rest) := by
    simp [frame]
  rw [hframe, decode_header hhdr hmax]
  exact decodeFrame_append rfl rest

/-- A call on a header: more is needed, the header is complete, or it is refused for good. -/
theorem header_cases (decodePacket : UInt8 → Dec DecodeError Pkt) (maxSize : ℕ) (src : Bytes) :
    decode decodePacket maxSize .frameHeader src = (.ok none, .frameHeader, src) ∨
      (∃ hdr fixed rest, src = hdr ++ rest ∧ IsHeader hdr fixed ∧
        SizeOk maxSize fixed.remainingLength) ∨
      ∃ e, ∀ more, decode decodePacket maxSize .frameHeader (src ++ more) =
        (.error e, .frameHeader, src ++ more) := by
  rcases src with _ | ⟨b, _ | ⟨b', lenSrc⟩⟩
  · exact Or.inl rfl
  · exact Or.inl rfl
  have hlen (more : Bytes) : ¬ (b :: b' :: lenSrc ++ more).length < 2 := by simp
  have hdec := decided_decodeVariableLengthCursor (b' :: lenSrc)
  rcases hd : decodeVariableLengthCursor (b' :: lenSrc) with f | ⟨n, rest⟩
  · rw [hd] at hdec
    by_cases hf : f = .err .malformedPacket
    · subst hf
      left
      have := hlen []
      rw [append_nil] at this
      simp only [decode, decodeHeader, if_neg this, decodeVariableLength, hd]
    · have hmore := hdec.resolve_left hf
      refine Or.inr (Or.inr ⟨f, fun more => ?_⟩)
      have hvar : decodeVariableLength (b' :: lenSrc ++ more) = .error f := by
        rw [decodeVariableLength, hmore]
        split <;> simp_all
      simp only [cons_append] at hvar hlen ⊢
      simp only [decode, decodeHeader, if_neg (hlen more), hvar]
  · rw [hd] at hdec
    obtain ⟨len, hsrc, hreads⟩ := hdec
    by_cases hmax : SizeOk maxSize n
    · exact Or.inr (Or.inl ⟨b :: len, ⟨b, n⟩, rest, by rw [cons_append, ← hsrc],
        ⟨len, rfl, hreads⟩, hmax⟩)
    · refine Or.inr (Or.inr ⟨.err (.maxSizeExceeded n maxSize), fun more => ?_⟩)
      have hsize : maxSize ≠ 0 ∧ maxSize < n := by
        unfold SizeOk at hmax
        omega
      have hvar : decodeVariableLength (b' :: lenSrc ++ more) = .ok (some (n, len.length)) := by
        rw [hsrc, append_assoc, decodeVariableLength_append hreads]
      simp only [cons_append] at hvar hlen ⊢
      simp only [decode, decodeHeader, if_neg (hlen more), hvar, if_pos hsize]

/-! ## Independence of the chunks -/

def weight : DecodeState → ℕ
  | .frameHeader => 0
  | .frame _ => 1

theorem frame_cases (fixed : FixedHeader) (src : Bytes) :
    src.length < fixed.remainingLength ∨
      ∃ body rest, src = body ++ rest ∧ body.length = fixed.remainingLength := by
  rcases Nat.lt_or_ge src.length fixed.remainingLength with h | h
  · exact Or.inl h
  · exact Or.inr ⟨_, _, (take_append_drop fixed.remainingLength src).symm,
      length_take_of_le h⟩

theorem decodeFrame_item {src' : Bytes} {i : Pkt × ℕ}
    (h : decodeFrame decodePacket fixed src = (.ok (some i), s', src')) :
    ∃ body, src = body ++ src' ∧ body.length = fixed.remainingLength ∧ s' = .frameHeader ∧
      Dec.Returns (decodePacket fixed.firstByte) body i.1 ∧ i.2 = fixed.remainingLength := by
  obtain hlt | ⟨body, rest, rfl, hbody⟩ := frame_cases fixed src
  · rw [decodeFrame_of_lt hlt] at h
    cases h
  · rw [decodeFrame_append hbody] at h
    rcases hp : decodePacket fixed.firstByte body with e | ⟨p, left⟩
    · rw [hp] at h
      cases h
    · rw [hp] at h
      cases h
      exact ⟨body, rfl, hbody, rfl, ⟨left, hp⟩, rfl⟩

theorem decodeFrame_none {src' : Bytes} (h : decodeFrame decodePacket fixed src = (.ok none, s', src')) :
    s' = .frame fixed ∧ src' = src := by
  obtain hlt | ⟨body, rest, rfl, hbody⟩ := frame_cases fixed src
  · rw [decodeFrame_of_lt hlt] at h
    cases h
    exact ⟨rfl, rfl⟩
  · rw [decodeFrame_append hbody] at h
    rcases hp : decodePacket fixed.firstByte body with e | ⟨p, left⟩ <;> rw [hp] at h <;> cases h

theorem decodeFrame_more {src' more : Bytes}
    {r : Except (Fault DecodeError) (Option (Pkt × ℕ))} (hr : r ≠ .ok none)
    (h : decodeFrame decodePacket fixed src = (r, s', src')) :
    decodeFrame decodePacket fixed (src ++ more) = (r, s', src' ++ more) := by
  obtain hlt | ⟨body, rest, rfl, hbody⟩ := frame_cases fixed src
  · rw [decodeFrame_of_lt hlt] at h
    cases h
    exact absurd rfl hr
  · rw [decodeFrame_append hbody] at h
    rw [append_assoc, decodeFrame_append hbody]
    rcases hp : decodePacket fixed.firstByte body with e | ⟨p, left⟩ <;> rw [hp] at h <;> cases h <;>
      rfl

/-- The bytes of the next packet that are already taken. -/
def Partial : DecodeState → Bytes → Prop
  | .frameHeader, hdr => hdr = []
  | .frame fixed, hdr => IsHeader hdr fixed

def IsFrame (decodePacket : UInt8 → Dec DecodeError Pkt) (f : Bytes) (i : Pkt × ℕ) : Prop :=
  ∃ hdr fixed body, f = hdr ++ body ∧ IsHeader hdr fixed ∧ body.length = fixed.remainingLength ∧
    Dec.Returns (decodePacket fixed.firstByte) body i.1 ∧ i.2 = fixed.remainingLength

/-- A call comes to a body, possibly after it has taken a header. -/
structure AtBody (decodePacket : UInt8 → Dec DecodeError Pkt) (maxSize : ℕ) (s : DecodeState)
    (src taken rest : Bytes) (fixed : FixedHeader) : Prop where
  src_eq : src = taken ++ rest
  pos : 0 < weight s + taken.length
  isHeader : ∀ hdr, Partial s hdr → IsHeader (hdr ++ taken) fixed
  decode_eq : ∀ more, decode decodePacket maxSize s (src ++ more) =
    decodeFrame decodePacket fixed (rest ++ more)

theorem AtBody.decode_eq_nil {s : DecodeState} {taken rest : Bytes}
    (h : AtBody decodePacket maxSize s src taken rest fixed) :
    decode decodePacket maxSize s src = decodeFrame decodePacket fixed rest := by
  simpa using h.decode_eq []

theorem decode_cases (decodePacket : UInt8 → Dec DecodeError Pkt) (maxSize : ℕ) (s : DecodeState)
    (src : Bytes) :
    decode decodePacket maxSize s src = (.ok none, s, src) ∨
      (∃ taken rest fixed, AtBody decodePacket maxSize s src taken rest fixed) ∨
      ∃ e, ∀ more, decode decodePacket maxSize s (src ++ more) = (.error e, s, src ++ more) := by
  cases s with
  | frame fixed =>
    refine Or.inr (Or.inl ⟨[], src, fixed, rfl, Nat.zero_lt_one, fun hdr hs => ?_, fun _ => rfl⟩)
    rwa [append_nil]
  | frameHeader =>
    refine (header_cases decodePacket maxSize src).imp_right (Or.imp_left ?_)
    rintro ⟨hdr, fixed, rest, rfl, hhdr, hmax⟩
    refine ⟨hdr, rest, fixed, rfl, ?_, ?_, fun more => ?_⟩
    · obtain ⟨len, rfl, -⟩ := hhdr
      exact Nat.succ_pos _
    · rintro _ rfl
      exact hhdr
    · rw [append_assoc, decode_header hhdr hmax]

theorem decode_more {s : DecodeState} {src' : Bytes}
    {r : Except (Fault DecodeError) (Option (Pkt × ℕ))} (hr : r ≠ .ok none)
    (h : decode decodePacket maxSize s src = (r, s', src')) (more : Bytes) :
    decode decodePacket maxSize s (src ++ more) = (r, s', src' ++ more) := by
  obtain hnone | ⟨taken, rest, fixed, hat⟩ | ⟨e, herr⟩ := decode_cases decodePacket maxSize s src
  · cases hnone.symm.trans h
    exact absurd rfl hr
  · rw [hat.decode_eq]
    exact decodeFrame_more hr (hat.decode_eq_nil.symm.trans h)
  · have herr' := herr []
    rw [append_nil, h] at herr'
    cases herr'
    exact herr more

theorem decode_resume {s : DecodeState} {src' : Bytes}
    (h : decode decodePacket maxSize s src = (.ok none, s', src')) (more : Bytes) :
    decode decodePacket maxSize s (src ++ more) = decode decodePacket maxSize s' (src' ++ more) := by
  obtain hnone | ⟨taken, rest, fixed, hat⟩ | ⟨e, herr⟩ := decode_cases decodePacket maxSize s src
  · cases hnone.symm.trans h
    rfl
  · obtain ⟨rfl, rfl⟩ := decodeFrame_none (hat.decode_eq_nil.symm.trans h)
    exact hat.decode_eq more
  · have herr' := herr []
    rw [append_nil, h] at herr'
    cases herr'

theorem decode_item {s : DecodeState} {src' : Bytes} {i : Pkt × ℕ}
    (h : decode decodePacket maxSize s src = (.ok (some i), s', src')) :
    ∃ taken fixed body, src = taken ++ body ++ src' ∧ s' = .frameHeader ∧
      0 < weight s + taken.length ∧ (∀ hdr, Partial s hdr → IsHeader (hdr ++ taken) fixed) ∧
      body.length = fixed.remainingLength ∧
      Dec.Returns (decodePacket fixed.firstByte) body i.1 ∧ i.2 = fixed.remainingLength := by
  obtain hnone | ⟨taken, rest, fixed, hat⟩ | ⟨e, herr⟩ := decode_cases decodePacket maxSize s src
  · cases hnone.symm.trans h
  · obtain ⟨body, rfl, hbody, rfl, hp, hi⟩ := decodeFrame_item (hat.decode_eq_nil.symm.trans h)
    exact ⟨taken, fixed, body, by rw [hat.src_eq, append_assoc], rfl, hat.pos, hat.isHeader,
      hbody, hp, hi⟩
  · have herr' := herr []
    rw [append_nil, h] at herr'
    cases herr'

/-- The answers of the machine do not depend on how the stream is cut into chunks. -/
theorem incremental_decode : Poll.Incremental (decode decodePacket maxSize) weight where
  item h := decode_more (by simp) h
  error h := decode_more (by simp) h
  resume h := decode_resume h
  progress h := by
    obtain ⟨taken, fixed, body, rfl, rfl, hpos, -⟩ := decode_item h
    have hheader : weight .frameHeader = 0 := rfl
    simp only [hheader, length_append]
    omega

/-- The machine takes the bytes of a packet one after the other from the front of the buffer. -/
theorem accounts_decode : Poll.Accounts (decode decodePacket maxSize) Partial
    (IsFrame decodePacket) where
  item {s hdr src i s' src'} hs h := by
    obtain ⟨taken, fixed, body, rfl, rfl, -, hhdr, hbody, hp, hi⟩ := decode_item h
    refine ⟨taken ++ body, rfl, ⟨hdr ++ taken, fixed, body, ?_, hhdr hdr hs, hbody, hp, hi⟩, rfl⟩
    rw [append_assoc]
  none {s hdr src s' src'} hs h := by
    obtain hnone | ⟨taken, rest, fixed, hat⟩ | ⟨e, herr⟩ := decode_cases decodePacket maxSize s src
    · cases hnone.symm.trans h
      exact ⟨[], rfl, by rwa [append_nil]⟩
    · obtain ⟨rfl, rfl⟩ := decodeFrame_none (hat.decode_eq_nil.symm.trans h)
      exact ⟨taken, hat.src_eq, hat.isHeader hdr hs⟩
    · have herr' := herr []
      rw [append_nil, h] at herr'
      cases herr'

end Framing

end FerroMq.Codec
