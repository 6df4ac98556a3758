import FerroMq.Session.PacketIds
import FerroMq.Session.Redelivery

/-!
# The capacity of the inflight window

A PUBREL that is sent again is put into the inflight window without asking `has_credit`: a resumed session may
have more of them than there is room, and then the difference in `has_credit` wraps around (`filled_beyond`,
`withinCapacity_iff_affords`).
-/

namespace FerroMq

open Lib Codec

namespace OutInflight

def len (self : OutInflight) : ℕ := self.queues.entries.length

variable (self : OutInflight)

theorem len_le : self.len ≤ UInt16.size := by
  have hlen : self.queues.keys.length = self.len := List.length_map _
  rw [← hlen]
  exact length_ids_le self.queues.nodup

/-- The window holds at most as many messages as it has room for, and `has_credit` says whether there is
room for another one, without its difference wrapping around. -/
structure WithinCapacity (w : OutInflight) : Prop where
  le_cap : w.len ≤ w.cap.toNat
  hasCredit_iff : w.hasCredit = true ↔ w.len < w.cap.toNat
  no_underflow : UInt64.ofNat w.len ≤ w.cap

theorem withinCapacity_iff : self.WithinCapacity ↔ self.len ≤ self.cap.toNat := by
  refine ⟨WithinCapacity.le_cap, fun hle => ?_⟩
  have hlen : (UInt64.ofNat self.len).toNat = self.len := by
    refine UInt64.toNat_ofNat_of_lt' (self.len_le.trans_lt ?_)
    decide
  have hno : UInt64.ofNat self.len ≤ self.cap := by
    rw [UInt64.le_iff_toNat_le, hlen]
    exact hle
  refine ⟨hle, ?_, hno⟩
  have hsub : (self.cap - UInt64.ofNat self.len).toNat = self.cap.toNat - self.len := by
    rw [UInt64.toNat_sub_of_le _ _ hno, hlen]
  unfold hasCredit
  rw [decide_eq_true_iff, gt_iff_lt, UInt64.lt_iff_toNat_lt]
  change 0 < (self.cap - UInt64.ofNat self.len).toNat ↔ _
  rw [hsub]
  omega

theorem cap_popFrontTimeout {self self' : OutInflight} {now : ℤ} {m : OutInflightMessage}
    (h : self.popFrontTimeout now = some (m, self')) : self'.cap = self.cap := by
  unfold popFrontTimeout at h
  split_ifs at h
  obtain ⟨⟨e, queues⟩, -, heq⟩ := Option.map_eq_some_iff.1 h
  obtain ⟨-, rfl⟩ := Prod.mk.inj heq
  rfl

theorem nextId_eq : ∃ next, self.nextId.2 = { self with next } := by
  rcases self.nextId_cases with ⟨-, heq⟩ | ⟨k, -, -, -, heq⟩ <;> exact ⟨_, by rw [heq]⟩

theorem cap_pushBack (keepsPlace : Bool) (m : OutInflightMessage) :
    (self.pushBack keepsPlace m).cap = self.cap := by
  unfold pushBack
  split <;> rfl

theorem len_pushBack {self : OutInflight} {m : OutInflightMessage} {k : PacketId}
    (hk : m.delivery.publish.packetId = some k) (keepsPlace : Bool) :
    (self.pushBack keepsPlace m).len = if k ∈ self.queues.keys then self.len else self.len + 1 := by
  unfold pushBack
  rw [hk]
  exact self.queues.length_insert keepsPlace k m

theorem len_pushBack_le (keepsPlace : Bool) (m : OutInflightMessage) :
    (self.pushBack keepsPlace m).len ≤ self.len + 1 := by
  cases hk : m.delivery.publish.packetId with
  | none =>
    unfold pushBack
    rw [hk]
    exact Nat.le_succ _
  | some k =>
    rw [len_pushBack hk]
    split_ifs
    · exact Nat.le_succ _
    · exact le_rfl

end OutInflight

namespace Outbound

/-- What a connection does, the resumption of its session included. -/
inductive LoopAction
  | action (a : Action)
  | transfer (info : OfflineInfo) (expired : OutInflightMessage → Bool)

def loopStep (keepsPlace : Bool) (s : Outbound) : LoopAction → Outbound
  | .action a => s.exec keepsPlace a
  | .transfer info expired => if s.running then s.transferSessionState expired info else s

/-- There is room for a PUBREL that is sent again, unless its id is registered. -/
def Affords (s : Outbound) : LoopAction → Prop
  | .action (.processMessage _ _) => s.running = true → ∀ m, s.rx.head? = some (.sendRerelease m) →
      ∀ k ∈ m.delivery.publish.packetId, k ∉ s.inflight.queues.keys →
        s.inflight.len < s.inflight.cap.toNat
  | _ => True

variable {s s' s'' : Outbound}

/-! ## How the window grows -/

/-- At most `n` messages more. -/
structure GrowsBy (n : ℕ) (s s' : Outbound) : Prop where
  cap : s'.inflight.cap = s.inflight.cap
  len_le : s'.inflight.len ≤ s.inflight.len + n

theorem GrowsBy.refl (n : ℕ) (s : Outbound) : GrowsBy n s s := ⟨rfl, Nat.le_add_right _ _⟩

theorem GrowsBy.of_eq {n : ℕ} (h : s'.inflight = s.inflight) : GrowsBy n s s' :=
  ⟨congrArg _ h, h ▸ Nat.le_add_right _ _⟩

theorem GrowsBy.trans (h : GrowsBy 0 s s') (h' : GrowsBy 0 s' s'') : GrowsBy 0 s s'' :=
  ⟨h'.cap.trans h.cap, h'.len_le.trans h.len_le⟩

theorem growsBy_reforward (expired : OutInflightMessage → Bool) (s : Outbound)
    (m : OutInflightMessage) : GrowsBy 0 s (reforward expired s m) :=
  .of_eq (inflight_reforward expired s m)

theorem growsBy_timeoutLoop (now : ℤ) (expired : OutInflightMessage → Bool) (n : ℕ) (s : Outbound) :
    GrowsBy 0 s (timeoutLoop now expired n s) := by
  induction n generalizing s with
  | zero => exact .refl 0 s
  | succ n ih =>
    rw [timeoutLoop]
    cases hpop : s.inflight.popFrontTimeout now with
    | none => exact .refl 0 s
    | some popped =>
      obtain ⟨m, inflight⟩ := popped
      obtain ⟨-, -, k, hw⟩ := OutInflight.popFrontTimeout_eq_some hpop
      have hpopped : GrowsBy 0 s { s with inflight } := by
        refine ⟨OutInflight.cap_popFrontTimeout hpop, ?_⟩
        have hlen : s.inflight.len = inflight.len + 1 := congrArg List.length hw
        change inflight.len ≤ s.inflight.len
        omega
      exact (hpopped.trans (growsBy_reforward expired _ m)).trans (ih _)

variable (keepsPlace : Bool)

theorem growsBy_sendPublish (s : Outbound) (d : Delivery) (now : ℤ) (sent : Bool) :
    GrowsBy 1 s (sendPublish keepsPlace s d now sent) := by
  unfold sendPublish
  split_ifs
  · cases momentStatus d.publish.qos with
    | none => exact .of_eq rfl
    | some status =>
      exact ⟨s.inflight.cap_pushBack keepsPlace _, s.inflight.len_pushBack_le keepsPlace _⟩
  · exact .of_eq rfl

theorem growsBy_deliver (s : Outbound) (now : ℤ) (expired sent : Bool) :
    GrowsBy 1 s (s.deliver keepsPlace now expired sent) := by
  unfold deliver
  cases s.queue with
  | nil => exact .refl 1 s
  | cons d queue =>
    obtain ⟨next, hnext⟩ := s.inflight.nextId_eq
    dsimp only
    split_ifs
    · exact .of_eq rfl
    · split
      · rename_i inflight heq
        obtain rfl : inflight = { s.inflight with next } :=
          (congrArg Prod.snd heq).symm.trans hnext
        exact ⟨rfl, Nat.le_succ _⟩
      · rename_i k inflight heq
        obtain rfl : inflight = { s.inflight with next } :=
          (congrArg Prod.snd heq).symm.trans hnext
        have hsend := growsBy_sendPublish keepsPlace
          { s with queue, inflight := { s.inflight with next } }
          { d with publish := { d.publish with packetId := some k } } now sent
        exact ⟨hsend.cap, hsend.len_le⟩
    · have hsend := growsBy_sendPublish keepsPlace { s with queue } d now sent
      exact ⟨hsend.cap, hsend.len_le⟩

theorem growsBy_transferSessionState (expired : OutInflightMessage → Bool) (s : Outbound)
    (info : OfflineInfo) : GrowsBy 0 s (s.transferSessionState expired info) := by
  have hreforward (l : List OutInflightMessage) (s : Outbound) :
      GrowsBy 0 s (l.foldl (reforward expired) s) := by
    induction l generalizing s with
    | nil => exact .refl 0 s
    | cons m l ih => exact (growsBy_reforward expired s m).trans (ih _)
  have hforward (l : List Delivery) (s : Outbound) : GrowsBy 0 s (l.foldl forward s) := by
    induction l generalizing s with
    | nil => exact .refl 0 s
    | cons d l ih =>
      have hone : GrowsBy 0 s (s.forward d) := .of_eq rfl
      exact hone.trans (ih _)
  rw [transferSessionState]
  cases maxTransferId info.inflightMessages with
  | none => exact (hreforward _ _).trans (hforward _ _)
  | some maxId =>
    have hadvance : GrowsBy 0 s { s with inflight := s.inflight.advanceNextId maxId } := ⟨rfl, le_rfl⟩
    exact (hadvance.trans (hreforward _ _)).trans (hforward _ _)

/-! ## Runs -/

theorem GrowsBy.withinCapacity {n : ℕ} (h : GrowsBy n s s')
    (hs : s.inflight.len + n ≤ s.inflight.cap.toNat) : s'.inflight.WithinCapacity := by
  rw [OutInflight.withinCapacity_iff, h.cap]
  exact h.len_le.trans hs

/-- A PUBREL that is sent again needs room for its message. -/
theorem withinCapacity_processMessage_iff (hs : s.inflight.WithinCapacity)
    (hrun : s.running = true) (now : ℤ) (sent : Bool) :
    (s.processMessage keepsPlace now sent).inflight.WithinCapacity ↔
      s.Affords (.action (.processMessage now sent)) := by
  have hle := hs.le_cap
  have hkeep {s' : Outbound} (h : s'.inflight = s.inflight) : s'.inflight.WithinCapacity := h ▸ hs
  unfold processMessage Affords
  cases hrx : s.rx with
  | nil => exact iff_of_true (hkeep rfl) fun _ m hm => nomatch hm
  | cons x rx =>
    cases x with
    | forward d => exact iff_of_true (hkeep rfl) fun _ m hm => nomatch hm
    | sendRerelease m =>
      dsimp only
      unfold sendRerelease
      cases hk : m.delivery.publish.packetId with
      | none =>
        refine iff_of_true (hkeep rfl) fun _ m' hm' k hk' => ?_
        obtain rfl : m = m' := SessionMessage.sendRerelease.inj (Option.some.inj hm')
        exact nomatch hk.symm.trans hk'
      | some k =>
        have hpush : (s.inflight.pushBack keepsPlace ⟨m.delivery, .unComplete, now⟩).WithinCapacity ↔
            (k ∉ s.inflight.queues.keys → s.inflight.len < s.inflight.cap.toNat) := by
          rw [OutInflight.withinCapacity_iff, OutInflight.cap_pushBack,
            OutInflight.len_pushBack (m := ⟨m.delivery, .unComplete, now⟩) hk]
          split_ifs with hmem
          · exact iff_of_true hle fun hnot => absurd hmem hnot
          · exact ⟨fun h _ => h, fun h => h hmem⟩
        have haffords : (s.running = true → ∀ m', (SessionMessage.sendRerelease m :: rx).head? =
              some (.sendRerelease m') → ∀ k ∈ m'.delivery.publish.packetId,
              k ∉ s.inflight.queues.keys → s.inflight.len < s.inflight.cap.toNat) ↔
            (k ∉ s.inflight.queues.keys → s.inflight.len < s.inflight.cap.toNat) := by
          refine ⟨fun h => h hrun m rfl k hk, fun h _ m' hm' k' hk' => ?_⟩
          obtain rfl : m = m' := SessionMessage.sendRerelease.inj (Option.some.inj hm')
          obtain rfl : k = k' := Option.some.inj (hk.symm.trans hk')
          exact h
        rw [haffords, ← hpush]
        dsimp only
        split_ifs <;> exact Iff.rfl

theorem growsBy_received (s : Outbound) (k : PacketId) (now : ℤ) (sent : Bool) :
    GrowsBy 0 s (s.received k now sent) := by
  have hreceived {trace : List DeliveryEvent} {running : Bool} :
      GrowsBy 0 s { s with inflight := s.inflight.updateStatus k .unComplete now, trace, running } :=
    ⟨rfl, (List.length_map _).le⟩
  unfold received
  dsimp only
  split_ifs
  exacts [hreceived, hreceived]

theorem withinCapacity_loopStep_iff (hs : s.inflight.WithinCapacity)
    (a : LoopAction) :
    (s.loopStep keepsPlace a).inflight.WithinCapacity ↔ s.Affords a := by
  have hgrows {s' : Outbound} (h : GrowsBy 0 s s') : s'.inflight.WithinCapacity :=
    h.withinCapacity hs.le_cap
  have hremove (k : PacketId) (event : DeliveryEvent) : GrowsBy 0 s (s.acknowledged k event) :=
    ⟨rfl, List.length_filter_le _ _⟩
  cases a with
  | transfer info expired =>
    refine iff_of_true (hgrows ?_) trivial
    rw [loopStep]
    split_ifs
    exacts [growsBy_transferSessionState expired s info, .refl 0 s]
  | action a =>
    rw [loopStep]
    rcases s.exec_cases keepsPlace a with ⟨hnot, heq⟩ | ⟨henabled, heq⟩
    · rw [heq]
      refine iff_of_true hs ?_
      cases a with
      | processMessage now sent => exact fun hrun => absurd hrun hnot
      | _ => trivial
    · rw [heq]
      cases a with
      | arrive publish => exact iff_of_true (hgrows (.of_eq rfl)) trivial
      | timeouts now expired => exact iff_of_true (hgrows (growsBy_timeoutLoop now expired _ s)) trivial
      | deliver now expired sent =>
        refine iff_of_true ?_ trivial
        exact (growsBy_deliver keepsPlace s now expired sent).withinCapacity
          (hs.hasCredit_iff.1 henabled.2)
      | processMessage now sent =>
        exact withinCapacity_processMessage_iff keepsPlace hs henabled now sent
      | puback k => exact iff_of_true (hgrows (hremove k _)) trivial
      | pubrec k now sent => exact iff_of_true (hgrows (growsBy_received s k now sent)) trivial
      | pubcomp k => exact iff_of_true (hgrows (hremove k _)) trivial

/-- In every run of a connection with any capacity, the window keeps to it at all times exactly if there
is room for every PUBREL that is sent again. -/
theorem withinCapacity_iff_affords (keepsPlace : Bool) (cap : UInt64) (retryInterval expiryInterval : ℤ)
    (queueCap : ℕ) (actions : List LoopAction) :
    (∀ pre, pre <+: actions →
        (pre.foldl (loopStep keepsPlace)
          (init cap retryInterval expiryInterval queueCap)).inflight.WithinCapacity) ↔
      Along (loopStep keepsPlace) Affords (init cap retryInterval expiryInterval queueCap) actions := by
  have hinit : (init cap retryInterval expiryInterval queueCap).inflight.WithinCapacity :=
    (OutInflight.withinCapacity_iff _).2 (Nat.zero_le _)
  exact forall_prefix_iff_along_of_step (P := fun s : Outbound => s.inflight.WithinCapacity)
    (fun _ a hs => withinCapacity_loopStep_iff keepsPlace hs a) hinit actions

/-- A session with two messages that wait for their PUBCOMP is resumed by a connection whose window has
room for one. -/
theorem filled_beyond :
    let publish (k : PacketId) : Publish := ⟨false, false, .exactlyOnce, "t", some k, [], none⟩
    let waiting (k : PacketId) : OutInflightMessage := ⟨⟨0, publish k⟩, .unComplete, 0⟩
    let s := List.foldl (loopStep true) (init 1 0 0 1000) [
      .transfer ⟨[], [waiting ⟨1, by decide⟩, waiting ⟨2, by decide⟩]⟩ fun _ => false,
      .action (.processMessage 1 true), .action (.processMessage 2 true)]
    s.inflight.cap = 1 ∧ s.inflight.len = 2 ∧ s.inflight.hasCredit = true := by
  decide +kernel

end Outbound

end FerroMq
