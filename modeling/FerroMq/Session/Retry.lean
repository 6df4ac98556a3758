import FerroMq.Session.Outbound

/-!
# When a message is sent again

The event loop looks at the front of the inflight window only.  A PUBREC updates a message where it stands, so a
message behind it may be due earlier (`overdue_behind_front`).  `prompt_of_refreshed_last` says that nothing
else disturbs the order.
-/

namespace FerroMq

open Lib Codec

namespace OutInflight

/-- The time until the front is due, in milliseconds, but at least one. -/
def getTimeout (self : OutInflight) (now : ℤ) : Option ℤ :=
  if self.interval = 0 then none
  else
    match self.queues.entries with
    | (_, m) :: _ =>
      let t := self.interval - (now - m.updateTime)
      some (if t < 1 then 1 else t)
    | [] => none

/-- No message is overlooked: if one is due, `pop_front_timeout` takes out a message, and `get_timeout`
does not wait longer than until the first one is due. -/
structure Prompt (w : OutInflight) (now : ℤ) : Prop where
  popped : (∃ e ∈ w.queues.entries, e.2.timeout w.interval now = true) →
    (w.popFrontTimeout now).isSome = true
  waits : 0 < w.interval → ∀ e ∈ w.queues.entries, ∃ t, w.getTimeout now = some t ∧ 1 ≤ t ∧
    t ≤ max 1 (e.2.updateTime + w.interval - now)

/-- The messages stand in the order in which they were updated. -/
def Timely (self : OutInflight) : Prop :=
  self.queues.Ordered fun m m' => m.updateTime ≤ m'.updateTime

variable {self : OutInflight}

section Front

variable {k : PacketId} {m : OutInflightMessage} {rest : List (PacketId × OutInflightMessage)}

theorem isSome_popFront (hentries : self.queues.entries = (k, m) :: rest) :
    self.popFront.isSome = true := by
  obtain ⟨cap, interval, next, ⟨entries, nodup⟩⟩ := self
  obtain rfl : entries = (k, m) :: rest := hentries
  rfl

theorem isSome_popFrontTimeout (hentries : self.queues.entries = (k, m) :: rest) {now : ℤ}
    (hdue : m.timeout self.interval now = true) : (self.popFrontTimeout now).isSome = true := by
  have hinterval := (of_decide_eq_true hdue).1
  have hfront : self.frontTimeout now = true := by
    unfold frontTimeout
    rw [if_neg (by omega), hentries]
    exact hdue
  unfold popFrontTimeout
  rw [if_pos hfront]
  exact isSome_popFront hentries

theorem getTimeout_eq (hentries : self.queues.entries = (k, m) :: rest) (hinterval : 0 < self.interval)
    (now : ℤ) : self.getTimeout now = some (max 1 (m.updateTime + self.interval - now)) := by
  unfold getTimeout
  rw [if_neg (by omega), hentries]
  dsimp only
  split_ifs with ht
  · rw [max_eq_left (by omega)]
  · rw [max_eq_right (by omega)]
    exact congrArg some (by omega)

theorem Timely.front_le (h : self.Timely) (hentries : self.queues.entries = (k, m) :: rest) :
    ∀ e ∈ self.queues.entries, m.updateTime ≤ e.2.updateTime := by
  unfold Timely DequeMap.Ordered at h
  rw [hentries] at h ⊢
  intro e he
  rcases List.mem_cons.1 he with rfl | he
  · exact le_rfl
  · exact (List.pairwise_cons.1 h).1 e he

end Front

theorem Timely.prompt (h : self.Timely) (now : ℤ) : self.Prompt now := by
  cases hentries : self.queues.entries with
  | nil =>
    refine ⟨?_, ?_⟩
    · rintro ⟨e, he, -⟩
      exact nomatch hentries ▸ he
    · intro _ e he
      exact nomatch hentries ▸ he
  | cons front rest =>
    obtain ⟨k, m⟩ := front
    have hfront := h.front_le hentries
    refine ⟨?_, fun hinterval e he => ?_⟩
    · rintro ⟨e, he, hdue⟩
      obtain ⟨hinterval, hdue⟩ := of_decide_eq_true hdue
      have hle := hfront e he
      exact isSome_popFrontTimeout hentries (decide_eq_true ⟨hinterval, by omega⟩)
    · have hle := hfront e he
      refine ⟨_, getTimeout_eq hentries hinterval now, le_max_left _ _, ?_⟩
      exact max_le_max le_rfl (by omega)

/-! ## Runs -/

inductive WindowOp
  /-- A message that has just been created. -/
  | pushBack (delivery : Delivery) (status : MomentStatus)
  | updateStatus (packetId : PacketId) (status : MomentStatus)
  | remove (packetId : PacketId)
  | popFrontTimeout

def apply (keepsPlace : Bool) (self : OutInflight) (now : ℤ) : WindowOp → OutInflight
  | .pushBack delivery status => self.pushBack keepsPlace ⟨delivery, status, now⟩
  | .updateStatus packetId status => self.updateStatus packetId status now
  | .remove packetId => self.remove packetId
  | .popFrontTimeout => ((self.popFrontTimeout now).map Prod.snd).getD self

end OutInflight

/-- A window and the time of the last operation. -/
structure ClockedWindow where
  window : OutInflight
  clock : ℤ

namespace ClockedWindow

open OutInflight

def step (keepsPlace : Bool) (s : ClockedWindow) (op : ℕ × WindowOp) : ClockedWindow where
  window := s.window.apply keepsPlace (s.clock + op.1) op.2
  clock := s.clock + op.1

/-- A message is updated where it stands only if those behind it are updated at the same time. -/
def RefreshesLast (keepsPlace : Bool) (s : ClockedWindow) : ℕ × WindowOp → Prop
  | (elapsed, .pushBack delivery _) => keepsPlace = true → ∀ k ∈ delivery.publish.packetId,
      ∀ e ∈ s.window.queues.behind k, s.clock + elapsed ≤ e.2.updateTime
  | (elapsed, .updateStatus k _) =>
      ∀ e ∈ s.window.queues.behind k, s.clock + elapsed ≤ e.2.updateTime
  | _ => True

instance (keepsPlace : Bool) (s : ClockedWindow) :
    (op : ℕ × WindowOp) → Decidable (RefreshesLast keepsPlace s op)
  | (elapsed, .pushBack delivery _) => inferInstanceAs (Decidable (keepsPlace = true →
      ∀ k ∈ delivery.publish.packetId, ∀ e ∈ s.window.queues.behind k,
        s.clock + elapsed ≤ e.2.updateTime))
  | (elapsed, .updateStatus k _) => inferInstanceAs (Decidable (∀ e ∈ s.window.queues.behind k,
      s.clock + elapsed ≤ e.2.updateTime))
  | (_, .remove _) | (_, .popFrontTimeout) => inferInstanceAs (Decidable True)

/-- The messages stand in order, and none was updated after the last operation. -/
structure InTime (s : ClockedWindow) : Prop where
  timely : s.window.Timely
  past : ∀ e ∈ s.window.queues.entries, e.2.updateTime ≤ s.clock

variable {s : ClockedWindow}

theorem InTime.drop (h : InTime s) {window : OutInflight} {now : ℤ} (hnow : s.clock ≤ now)
    (hsub : window.queues.entries.Sublist s.window.queues.entries) : InTime ⟨window, now⟩ where
  timely := List.Pairwise.sublist hsub h.timely
  past e he := (h.past e (hsub.subset he)).trans hnow

theorem InTime.pushBack (h : InTime s) {now : ℤ} (hnow : s.clock ≤ now) {keepsPlace : Bool}
    {delivery : Delivery} (status : MomentStatus)
    (hlast : keepsPlace = true → ∀ k ∈ delivery.publish.packetId, ∀ e ∈ s.window.queues.behind k,
      now ≤ e.2.updateTime) :
    InTime ⟨s.window.pushBack keepsPlace ⟨delivery, status, now⟩, now⟩ := by
  have hpast (e : PacketId × OutInflightMessage) (he : e ∈ s.window.queues.entries) :
      e.2.updateTime ≤ now := (h.past e he).trans hnow
  unfold OutInflight.pushBack
  cases hk : delivery.publish.packetId with
  | none => exact h.drop hnow (List.Sublist.refl _)
  | some k =>
    refine ⟨DequeMap.Ordered.insert h.timely hpast fun hkeeps => hlast hkeeps k hk, fun e he => ?_⟩
    rcases DequeMap.mem_insert.1 he with ⟨he, -⟩ | rfl
    · exact hpast e he
    · exact le_rfl

theorem InTime.updateStatus (h : InTime s) {now : ℤ} (hnow : s.clock ≤ now) {k : PacketId}
    (status : MomentStatus) (hlast : ∀ e ∈ s.window.queues.behind k, now ≤ e.2.updateTime) :
    InTime ⟨s.window.updateStatus k status now, now⟩ := by
  have hpast (e : PacketId × OutInflightMessage) (he : e ∈ s.window.queues.entries) :
      e.2.updateTime ≤ now := (h.past e he).trans hnow
  refine ⟨DequeMap.Ordered.modify h.timely (fun e he _ _ => hpast e he) fun e he _ _ => hlast e he,
    fun e he => ?_⟩
  rcases DequeMap.mem_modify.1 he with ⟨he, -⟩ | ⟨v, -, rfl⟩
  · exact hpast e he
  · exact le_rfl

theorem InTime.step (h : InTime s) {keepsPlace : Bool} {op : ℕ × WindowOp}
    (hop : RefreshesLast keepsPlace s op) : InTime (s.step keepsPlace op) := by
  obtain ⟨elapsed, op⟩ := op
  have hnow : s.clock ≤ s.clock + elapsed := by omega
  cases op with
  | pushBack delivery status => exact h.pushBack hnow status hop
  | updateStatus k status => exact h.updateStatus hnow status hop
  | remove k => exact h.drop hnow List.filter_sublist
  | popFrontTimeout =>
    refine h.drop hnow ?_
    unfold OutInflight.apply
    cases hpop : s.window.popFrontTimeout (s.clock + elapsed) with
    | none => exact List.Sublist.refl _
    | some popped =>
      obtain ⟨m, window⟩ := popped
      obtain ⟨-, -, k, hentries⟩ := popFrontTimeout_eq_some hpop
      exact hentries ▸ List.sublist_cons_self _ _

/-- In every run in which messages are updated only at the end of the window, no message that is due is
overlooked, at any time. -/
theorem prompt_of_refreshed_last (keepsPlace : Bool) (cap : UInt64) (retryInterval expiryInterval : ℤ)
    (start : ℤ) (ops : List (ℕ × WindowOp))
    (h : Along (step keepsPlace) (RefreshesLast keepsPlace)
      ⟨.new cap retryInterval expiryInterval, start⟩ ops) (now : ℤ) :
    (ops.foldl (step keepsPlace)
      ⟨.new cap retryInterval expiryInterval, start⟩).window.Prompt now := by
  have hinit : InTime ⟨.new cap retryInterval expiryInterval, start⟩ :=
    ⟨List.Pairwise.nil, fun _ he => nomatch he⟩
  exact (h.invariant (fun _ _ hop hs => hs.step hop) hinit).timely.prompt now

def outgoing (k : PacketId) : Delivery := ⟨0, ⟨false, false, .exactlyOnce, "t", some k, [], none⟩⟩

/-- The PUBREC is for the message that was sent last. -/
theorem prompt_after_pubrec :
    (List.foldl (step true) ⟨.new 16 1000 0, 0⟩
      [(0, .pushBack (outgoing ⟨1, by decide⟩) .unReceived),
        (5, .pushBack (outgoing ⟨2, by decide⟩) .unReceived),
        (5, .updateStatus ⟨2, by decide⟩ .unComplete)]).window.Prompt 1000 :=
  prompt_of_refreshed_last true 16 1000 0 0 _ (by decide +kernel) 1000

/-- Two messages are sent at the same time, and the PUBREC of the first one comes after 900 ms.  After
1000 ms the second one is due, but it is not taken out, and the event loop waits for 900 ms more. -/
theorem overdue_behind_front :
    let window := (List.foldl (step true) ⟨.new 16 1000 0, 0⟩
      [(0, .pushBack (outgoing ⟨1, by decide⟩) .unReceived),
        (0, .pushBack (outgoing ⟨2, by decide⟩) .unReceived),
        (900, .updateStatus ⟨1, by decide⟩ .unComplete)]).window
    (∃ e ∈ window.queues.entries, e.2.timeout window.interval 1000 = true) ∧
      (window.popFrontTimeout 1000).isSome = false ∧ window.getTimeout 1000 = some 900 := by
  decide +kernel

end ClockedWindow

end FerroMq
