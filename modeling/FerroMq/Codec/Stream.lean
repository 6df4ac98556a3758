import FerroMq.Codec.V3.Codec
import FerroMq.Codec.V5.Codec

/-!
# Reassembling packets from a stream

Both codecs run the framing machine, so the packets and the first error do not depend on how the stream is cut
into chunks, and every byte is taken once (`reassembles`).
-/

set_option linter.dupNamespace false

namespace FerroMq.Codec

open Lib

/-- A decoder that starts in `start` cuts any stream into the frames of the packets it returns,
however the stream arrives. -/
def Reassembles {σ Pkt : Type} (decode : Poll σ (Pkt × ℕ) (Fault DecodeError))
    (decodePacket : UInt8 → Dec DecodeError Pkt) (state : σ → DecodeState) (start : σ) : Prop :=
  ∀ chunks : List Bytes,
    let weight := fun s => Framing.weight (state s)
    let run := Poll.receive decode weight start [] chunks
    run = Poll.receive decode weight start [] [chunks.flatten] ∧
      (∀ s buf, run.2 = .waiting s buf → decode s buf = (.ok none, s, buf)) ∧
      ∃ frames tail, chunks.flatten = frames.flatten ++ tail ∧
        List.Forall₂ (Framing.IsFrame decodePacket) frames run.1 ∧
        Poll.Rest decode (fun s => Framing.Partial (state s)) tail run.2

section Extend

variable {τ Pkt : Type} {decodePacket : UInt8 → Dec DecodeError Pkt} {maxSize : τ → ℕ}
  {state : τ → DecodeState}
  {put : τ → Except (Fault DecodeError) (Option (Pkt × ℕ)) → DecodeState → τ}

theorem reassembles_extend (hstate : ∀ t a s, state (put t a s) = s)
    (hmax : ∀ t s, maxSize (put t (.ok none) s) = maxSize t)
    (hput : ∀ t s a s', put (put t (.ok none) s) a s' = put t a s')
    (hself : ∀ t, put t (.ok none) (state t) = t) {start : τ}
    (hstart : state start = .frameHeader) :
    Reassembles (Poll.extend (fun t => Framing.decode decodePacket (maxSize t)) state put)
      decodePacket state start := by
  intro chunks
  have hinc := Poll.Incremental.extend
    (fun t => @Framing.incremental_decode _ decodePacket (maxSize t)) hstate
    (fun t s => by rw [hmax]) hput
  have hacc := Poll.Accounts.extend
    (fun t => @Framing.accounts_decode _ decodePacket (maxSize t)) hstate
  have hwait : Poll.extend (fun t => Framing.decode decodePacket (maxSize t)) state put start [] =
      (.ok none, start, []) := by
    have hnone : Framing.decode decodePacket (maxSize start) (state start) [] =
        (.ok none, state start, []) := by
      rw [hstart]
      rfl
    rw [Poll.extend_apply hnone, hself]
  have hrun (chunks : List Bytes) := hinc.receive_eq hwait chunks
  simp only [List.nil_append] at hrun
  refine ⟨by rw [hrun, hrun, List.flatten_singleton], fun s buf hs => ?_, ?_⟩
  · rw [hrun] at hs
    exact hinc.drainAll_waiting hs
  · have hpartial : Framing.Partial (state start) [] := by
      rw [hstart]
      rfl
    rw [hrun]
    exact hacc.drain hpartial _

end Extend

namespace V3.Codec

theorem decode_eq_extend : decode =
    Poll.extend (fun c => Framing.decode decodePacket c.maxSize.toNat) Codec.state
      fun c _ state => { c with state } := rfl

end V3.Codec

namespace V5.Codec

def put (c : Codec) (answer : Except (Fault DecodeError) (Option (Packet × ℕ)))
    (state : DecodeState) : Codec :=
  { c with
    state
    noProblemInfo := match answer with
      | .ok (some (packet, _)) => noteConnect c.noProblemInfo packet
      | _ => c.noProblemInfo }

theorem decode_eq_extend : decode =
    Poll.extend (fun c => Framing.decode decodePacket c.maxInSize.toNat) Codec.state put := by
  funext c src
  rcases h : Framing.decode decodePacket c.maxInSize.toNat c.state src with ⟨_ | (_ | _), _, _⟩ <;>
    simp only [decode, Poll.extend, h, put]

end V5.Codec

/-- Both codecs reassemble every stream, whatever their limits. -/
theorem reassembles :
    (∀ c : V3.Codec, c.state = .frameHeader →
      Reassembles V3.Codec.decode V3.decodePacket V3.Codec.state c) ∧
    ∀ c : V5.Codec, c.state = .frameHeader →
      Reassembles V5.Codec.decode V5.decodePacket V5.Codec.state c := by
  constructor
  · intro c hc
    rw [V3.Codec.decode_eq_extend]
    exact reassembles_extend (fun _ _ _ => rfl) (fun _ _ => rfl) (fun _ _ _ _ => rfl) (fun _ => rfl) hc
  · intro c hc
    rw [V5.Codec.decode_eq_extend]
    refine reassembles_extend (fun _ _ _ => rfl) (fun _ _ => rfl) (fun t s a s' => ?_) (fun _ => rfl) hc
    rcases a with _ | (_ | _) <;> rfl

/-- Fresh codecs. -/
theorem reassembles_new :
    Reassembles V3.Codec.decode V3.decodePacket V3.Codec.state (V3.Codec.new 0) ∧
      Reassembles V5.Codec.decode V5.decodePacket V5.Codec.state (V5.Codec.new 0 0) :=
  ⟨reassembles.1 _ rfl, reassembles.2 _ rfl⟩

end FerroMq.Codec
