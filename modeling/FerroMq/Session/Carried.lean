import FerroMq.Session.PacketIds
import FerroMq.Session.Redelivery

/-!
# Messages that keep their packet ids

A resumed session registers the messages it takes over when they are sent again.  Until then `next_id` does not
know their ids: `advance_next_id` only moves the counter behind the largest one, and not behind 65535
(`carried_over_replaced`).  `isolated_iff` says when that is enough.
-/

namespace FerroMq.Outbound

open Lib Codec List

variable {w w' : DequeMap PacketId OutInflightMessage} {way way' : List SessionMessage} {k : PacketId}
  {m : OutInflightMessage}

/-! ## Ids that are used once -/

/-- No id is used twice by the messages in the window and those that keep their id on the way. -/
structure Distinct (w : DequeMap PacketId OutInflightMessage) (way : List SessionMessage) : Prop where
  keyed : ∀ e ∈ w.entries, e.2.delivery.publish.packetId = some e.1
  ids : (w.keys ++ way.filterMap reserved).Nodup

theorem Distinct.notMem (h : Distinct w way) (hk : k ∈ w.keys) : k ∉ way.filterMap reserved :=
  fun hway => (nodup_append'.1 h.ids).2.2 hk hway

theorem Distinct.lose (h : Distinct w way) (hway : way'.Sublist way) : Distinct w way' where
  keyed := h.keyed
  ids := h.ids.sublist ((List.Sublist.refl _).append (hway.filterMap _))

variable {x : SessionMessage} {d : Delivery}

theorem Distinct.arrive (h : Distinct w way) (hx : reserved x = none) : Distinct w (way ++ [x]) where
  keyed := h.keyed
  ids := by
    rw [filterMap_append, filterMap_cons_none hx, filterMap_nil, append_nil]
    exact h.ids

theorem Distinct.leave (h : Distinct w way) (hw : w.entries = (k, m) :: w'.entries) (hx : reserved x = some k) :
    Distinct w' (way ++ [x]) where
  keyed e he := h.keyed e (hw ▸ mem_cons_of_mem _ he)
  ids := by
    have hkeys : w.keys = k :: w'.keys := congrArg (List.map Prod.fst) hw
    have hids := h.ids
    rw [hkeys, cons_append] at hids
    rw [filterMap_append, filterMap_cons_some hx, filterMap_nil, ← append_assoc]
    exact (perm_append_singleton k _).nodup_iff.2 hids

theorem Distinct.drop (h : Distinct w way) (hw : w'.entries.Sublist w.entries) : Distinct w' way where
  keyed e he := h.keyed e (hw.subset he)
  ids := h.ids.sublist ((hw.map Prod.fst).append_right _)

theorem Distinct.updateStatus (h : Distinct w way) (k : PacketId) (status : MomentStatus) (now : ℤ) :
    Distinct (w.modify k fun m => m.withStatus status now) way where
  keyed e he := by
    rcases DequeMap.mem_modify.1 he with ⟨he, -⟩ | ⟨m, hm, rfl⟩
    · exact h.keyed e he
    · exact h.keyed (k, m) hm
  ids := by
    rw [DequeMap.keys_modify]
    exact h.ids

theorem Distinct.register (h : Distinct w way) (hk : k ∉ w.keys) (hway : k ∉ way.filterMap reserved)
    (hm : m.delivery.publish.packetId = some k) (keepsPlace : Bool) :
    Distinct (w.insert keepsPlace k m) way where
  keyed e he := by
    rcases DequeMap.mem_insert.1 he with ⟨he, -⟩ | rfl
    · exact h.keyed e he
    · exact hm
  ids := by
    rw [DequeMap.keys_insert hk, append_assoc]
    refine perm_middle.nodup_iff.2 (nodup_cons.2 ⟨?_, h.ids⟩)
    rw [mem_append]
    exact not_or.2 ⟨hk, hway⟩

theorem Distinct.free {pre post : List SessionMessage}
    (h : Distinct w (pre ++ x :: post)) (hx : reserved x = some k) :
    k ∉ w.keys ∧ k ∉ (pre ++ post).filterMap reserved := by
  have hids := h.ids
  rw [filterMap_append, filterMap_cons_some hx, ← append_assoc,
    perm_middle.nodup_iff, append_assoc, ← filterMap_append, nodup_cons,
    mem_append] at hids
  exact not_or.1 hids.1

/-! ## Messages that are not replaced -/

/-- A message whose id is registered before and after is the same message. -/
def Kept (w w' : DequeMap PacketId OutInflightMessage) : Prop :=
  ∀ k m m', (k, m) ∈ w.entries → (k, m') ∈ w'.entries → m'.delivery = m.delivery

theorem kept_of_subset (h : w'.entries ⊆ w.entries) : Kept w w' :=
  fun _ _ _ hm hm' => congrArg _ (DequeMap.eq_of_mem (h hm') hm)

theorem kept_updateStatus (w : DequeMap PacketId OutInflightMessage) (k : PacketId)
    (status : MomentStatus) (now : ℤ) : Kept w (w.modify k fun m => m.withStatus status now) := by
  intro k₁ m₁ m₂ hm₁ hm₂
  rcases DequeMap.mem_modify.1 hm₂ with ⟨hm₂, -⟩ | ⟨m, hm, heq⟩
  · exact congrArg _ (DequeMap.eq_of_mem hm₂ hm₁)
  · obtain ⟨rfl, rfl⟩ := Prod.mk.inj heq
    change m.delivery = m₁.delivery
    rw [DequeMap.eq_of_mem hm hm₁]

theorem kept_register (hk : k ∉ w.keys) (keepsPlace : Bool) (m : OutInflightMessage) :
    Kept w (w.insert keepsPlace k m) := by
  intro k₁ m₁ m₂ hm₁ hm₂
  rcases DequeMap.mem_insert.1 hm₂ with ⟨hm₂, -⟩ | heq
  · exact congrArg _ (DequeMap.eq_of_mem hm₂ hm₁)
  · exact absurd ((Prod.mk.inj heq).1 ▸ DequeMap.mem_keys_of_mem hm₁) hk

/-! ## The steps -/

/-- No id is used twice. -/
def Separate (s : Outbound) : Prop := Distinct s.inflight.queues s.onTheWay

/-- What a step must not do: give a new message the id of a message on the way, or replace a message in
the window by another one. -/
structure Undisturbed (keepsPlace : Bool) (s : Outbound) (a : Action) : Prop where
  isolated : ∀ k ∈ (s.exec keepsPlace a).inflight.queues.keys,
    k ∉ (s.exec keepsPlace a).onTheWay.filterMap reserved
  kept : Kept s.inflight.queues (s.exec keepsPlace a).inflight.queues

/-- A new message is sent only if the counter is not about to meet the id of a message on the way: a free
id is nearer, or the id is the one right behind the counter. -/
def Clear (s : Outbound) : Action → Prop
  | .deliver _ expired sent =>
    s.running = true → s.inflight.hasCredit = true → expired = false → sent = true →
      ∀ d ∈ s.queue.head?, needsId d.publish = true → ∀ k ∈ s.onTheWay.filterMap reserved,
        k.1 + 1 = s.inflight.next ∨
          ∃ k' ∉ s.inflight.queues.keys, s.inflight.ahead k' < s.inflight.ahead k
  | _ => True

/-- The state after a step that leaves every id with its message. -/
structure Apart (s s' : Outbound) : Prop where
  separate : Separate s'
  kept : Kept s.inflight.queues s'.inflight.queues

variable {s s' : Outbound}

theorem Apart.of_window (h : Separate s) (hway : s'.onTheWay.Sublist s.onTheWay)
    (hw : s'.inflight.queues.entries.Sublist s.inflight.queues.entries) : Apart s s' :=
  ⟨(h.lose hway).drop hw, kept_of_subset hw.subset⟩

theorem Apart.congr {s₁ : Outbound} (h : Apart s₁ s')
    (hqueues : s₁.inflight.queues = s.inflight.queues) : Apart s s' :=
  ⟨h.separate, hqueues ▸ h.kept⟩

theorem Separate.reforward (h : Separate s) {inflight : OutInflight}
    (hw : s.inflight.queues.entries = (k, m) :: inflight.queues.entries)
    (expired : OutInflightMessage → Bool) : Separate (reforward expired { s with inflight } m) := by
  have hk : m.delivery.publish.packetId = some k := h.keyed (k, m) (hw ▸ mem_cons_self)
  have hleave (x : SessionMessage) (hx : reserved x = some k) :
      Separate { s with inflight, rx := s.rx ++ [x] } := by
    have hdistinct := h.leave hw hx
    rwa [← onTheWay_append] at hdistinct
  have hdrop : Separate { s with inflight } :=
    Distinct.drop h (hw ▸ sublist_cons_self (k, m) _)
  unfold Outbound.reforward
  cases m.status with
  | unAck | unReceived => exact hleave _ hk
  | unComplete =>
    dsimp only
    split_ifs
    · exact hdrop
    · exact hleave _ hk

theorem Separate.timeoutLoop (h : Separate s) (now : ℤ) (expired : OutInflightMessage → Bool) (n : ℕ) :
    Separate (timeoutLoop now expired n s) ∧
      (timeoutLoop now expired n s).inflight.queues.entries.Sublist s.inflight.queues.entries := by
  induction n generalizing s with
  | zero => exact ⟨h, List.Sublist.refl _⟩
  | succ n ih =>
    rw [Outbound.timeoutLoop]
    cases hpop : s.inflight.popFrontTimeout now with
    | none => exact ⟨h, List.Sublist.refl _⟩
    | some popped =>
      obtain ⟨m, inflight⟩ := popped
      obtain ⟨-, -, k, hw⟩ := OutInflight.popFrontTimeout_eq_some hpop
      obtain ⟨hseparate, hsub⟩ := ih (h.reforward hw expired)
      rw [inflight_reforward] at hsub
      exact ⟨hseparate, hsub.trans (hw ▸ sublist_cons_self (k, m) _)⟩

theorem Separate.sendPublish (h : Separate s) {sent : Bool}
    (hd : sent = true → d.publish.qos ≠ .atMostOnce → ∃ k, d.publish.packetId = some k ∧
      k ∉ s.inflight.queues.keys ∧ k ∉ s.onTheWay.filterMap reserved)
    (keepsPlace : Bool) (now : ℤ) : Apart s (sendPublish keepsPlace s d now sent) := by
  have hsame {trace : List DeliveryEvent} {running : Bool} : Apart s { s with trace, running } :=
    .of_window h (List.Sublist.refl _) (List.Sublist.refl _)
  have hpush (hsent : sent = true) (hqos : d.publish.qos ≠ .atMostOnce) (status : MomentStatus)
      {trace : List DeliveryEvent} :
      Apart s { s with trace, inflight := s.inflight.pushBack keepsPlace ⟨d, status, now⟩ } := by
    obtain ⟨k, hk, hkeys, hway⟩ := hd hsent hqos
    unfold OutInflight.pushBack
    rw [hk]
    exact ⟨h.register hkeys hway hk keepsPlace, kept_register hkeys keepsPlace _⟩
  unfold Outbound.sendPublish
  cases sent with
  | false => exact hsame
  | true =>
    rw [if_pos rfl]
    cases hqos : d.publish.qos with
    | atMostOnce => exact hsame
    | atLeastOnce | exactlyOnce => exact hpush rfl (by rw [hqos]; decide) _

theorem reserved_of_needsId (h : needsId d.publish = true) : reserved (.forward d) = none := by
  rcases (of_decide_eq_true h).2 with hdup | hid
  · exact if_neg (by rw [hdup]; decide)
  · exact ite_eq_right_iff.2 fun _ => hid

theorem reserved_of_not_needsId (h : ¬ needsId d.publish = true) (hqos : d.publish.qos ≠ .atMostOnce) :
    ∃ k, d.publish.packetId = some k ∧ reserved (.forward d) = some k := by
  have hnot : ¬ (d.publish.dup = false ∨ d.publish.packetId = none) := fun hor =>
    h (decide_eq_true ⟨hqos, hor⟩)
  obtain ⟨hdup, hid⟩ := not_or.1 hnot
  obtain ⟨k, hk⟩ := Option.ne_none_iff_exists'.1 hid
  exact ⟨k, hk, (if_pos (eq_true_of_ne_false hdup)).trans hk⟩

section Deliver

variable {d : Delivery} {queue : List Delivery}

/-- The ids on the way do not change if a new message is taken from the queue. -/
theorem reserved_onTheWay_of_needsId (hqueue : s.queue = d :: queue)
    (hneeds : needsId d.publish = true) :
    s.onTheWay.filterMap reserved = (onTheWay { s with queue }).filterMap reserved := by
  rw [onTheWay_cons hqueue, filterMap_cons_none (reserved_of_needsId hneeds)]

theorem Separate.deliver_new (h : Separate s) (hqueue : s.queue = d :: queue)
    (hneeds : needsId d.publish = true) {inflight : OutInflight}
    (hnext : s.inflight.nextId = (some k, inflight)) {sent : Bool}
    (hclear : sent = true → k ∉ s.onTheWay.filterMap reserved) (keepsPlace : Bool) (now : ℤ) :
    Apart s (Outbound.sendPublish keepsPlace { s with queue, inflight }
      { d with publish := { d.publish with packetId := some k } } now sent) := by
  obtain ⟨hqueues, hfree⟩ := s.inflight.nextIdLoop_spec 65535
  change s.inflight.nextId.2.queues = _ at hqueues
  rw [hnext] at hqueues
  have hkeys : k ∉ s.inflight.queues.keys := hfree k (congrArg Prod.fst hnext)
  have hseparate : Separate { s with queue, inflight } := by
    unfold Separate
    dsimp only
    rw [hqueues]
    exact h.lose (onTheWay_cons hqueue ▸ sublist_cons_self _ _)
  refine Apart.congr (hseparate.sendPublish (fun hsent _ => ⟨k, rfl, ?_, fun hmem => ?_⟩)
    keepsPlace now) hqueues
  · exact hqueues.symm ▸ hkeys
  · refine hclear hsent ?_
    rw [reserved_onTheWay_of_needsId hqueue hneeds]
    exact hmem

theorem Separate.deliver_again (h : Separate s) (hqueue : s.queue = d :: queue)
    (hneeds : ¬ needsId d.publish = true) (keepsPlace : Bool) (now : ℤ) (sent : Bool) :
    Apart s (Outbound.sendPublish keepsPlace { s with queue } d now sent) := by
  have hway := onTheWay_cons hqueue
  have hseparate : Separate { s with queue } := h.lose (hway ▸ sublist_cons_self _ _)
  refine Apart.congr (hseparate.sendPublish (fun _ hqos => ?_) keepsPlace now) rfl
  obtain ⟨k, hk, hreserved⟩ := reserved_of_not_needsId hneeds hqos
  have hdistinct : Distinct s.inflight.queues ([] ++ .forward d :: onTheWay { s with queue }) :=
    hway ▸ h
  exact ⟨k, hk, hdistinct.free hreserved⟩

theorem Separate.deliver (h : Separate s) (keepsPlace : Bool) (now : ℤ) {expired sent : Bool}
    (hclear : expired = false → sent = true → ∀ d ∈ s.queue.head?, needsId d.publish = true →
      ∀ k ∈ s.onTheWay.filterMap reserved, k.1 + 1 = s.inflight.next ∨
        ∃ k' ∉ s.inflight.queues.keys, s.inflight.ahead k' < s.inflight.ahead k) :
    Apart s (s.deliver keepsPlace now expired sent) := by
  have hsame : Apart s s := .of_window h (List.Sublist.refl _) (List.Sublist.refl _)
  unfold Outbound.deliver
  cases hqueue : s.queue with
  | nil => exact hsame
  | cons d queue =>
    have hsub : (onTheWay { s with queue }).Sublist s.onTheWay :=
      onTheWay_cons hqueue ▸ sublist_cons_self _ _
    dsimp only
    split_ifs with hexpired hneeds
    · exact .of_window h hsub (List.Sublist.refl _)
    · have hqueues : s.inflight.nextId.2.queues = s.inflight.queues :=
        (s.inflight.nextIdLoop_spec 65535).1
      split
      · rename_i inflight hnext
        rw [hnext] at hqueues
        refine .of_window h hsub ?_
        rw [show inflight.queues = s.inflight.queues from hqueues]
      · rename_i k inflight hnext
        refine h.deliver_new hqueue hneeds hnext (fun hsent hmem => ?_) keepsPlace now
        have hk : k ∉ s.inflight.queues.keys := fun hkeys => h.notMem hkeys hmem
        refine ((s.inflight.nextId_ne_iff hk).2 ?_) (congrArg Prod.fst hnext)
        exact hclear (eq_false_of_ne_true hexpired) hsent d (hqueue ▸ rfl) hneeds k hmem
    · exact h.deliver_again hqueue hneeds keepsPlace now sent

end Deliver

theorem Separate.sendRerelease {rx : List SessionMessage} (h : Separate s)
    (hrx : s.rx = .sendRerelease m :: rx) (keepsPlace : Bool) (now : ℤ) (sent : Bool) :
    Apart s (Outbound.sendRerelease keepsPlace { s with rx } m now sent) := by
  have hway : s.onTheWay = s.queue.map .forward ++ .sendRerelease m :: rx := by
    unfold onTheWay
    rw [hrx]
  have hsub : (onTheWay { s with rx }).Sublist s.onTheWay :=
    hway ▸ (sublist_cons_self _ _).append_left _
  have hlose : Separate { s with rx } := h.lose hsub
  unfold Outbound.sendRerelease
  cases hk : m.delivery.publish.packetId with
  | none => exact .of_window h hsub (List.Sublist.refl _)
  | some k =>
    have hdistinct : Distinct s.inflight.queues (s.queue.map .forward ++ .sendRerelease m :: rx) :=
      hway ▸ h
    obtain ⟨hkeys, hfree⟩ := hdistinct.free (k := k) hk
    have hpush {trace : List DeliveryEvent} {running : Bool} :
        Apart s { s with
          rx, trace, running
          inflight := s.inflight.pushBack keepsPlace ⟨m.delivery, .unComplete, now⟩ } := by
      unfold OutInflight.pushBack
      dsimp only
      rw [hk]
      exact ⟨hlose.register (m := ⟨m.delivery, .unComplete, now⟩) hkeys hfree hk keepsPlace,
        kept_register hkeys keepsPlace _⟩
    dsimp only
    split_ifs
    exacts [hpush, hpush]

theorem Separate.processMessage (h : Separate s) (keepsPlace : Bool) (now : ℤ) (sent : Bool) :
    Apart s (s.processMessage keepsPlace now sent) := by
  unfold Outbound.processMessage
  cases hrx : s.rx with
  | nil => exact .of_window h (List.Sublist.refl _) (List.Sublist.refl _)
  | cons x rx =>
    cases x with
    | forward d =>
      refine .of_window h ?_ (List.Sublist.refl _)
      rw [onTheWay_forward hrx]
      exact ((enqueue_sublist s.queueCap s.queue d).map _).append_right rx
    | sendRerelease m => exact h.sendRerelease hrx keepsPlace now sent

theorem Separate.received (h : Separate s) (k : PacketId) (now : ℤ) (sent : Bool) :
    Apart s (s.received k now sent) := by
  have hreceived {trace : List DeliveryEvent} {running : Bool} :
      Apart s { s with inflight := s.inflight.updateStatus k .unComplete now, trace, running } :=
    ⟨h.updateStatus k _ now, kept_updateStatus _ k _ now⟩
  unfold Outbound.received
  dsimp only
  split_ifs
  exacts [hreceived, hreceived]

theorem Separate.exec (h : Separate s) (keepsPlace : Bool) {a : Action} (ha : s.Clear a) :
    Apart s (s.exec keepsPlace a) := by
  have hremove (k : PacketId) (event : DeliveryEvent) : Apart s (s.acknowledged k event) :=
    .of_window h (List.Sublist.refl _) filter_sublist
  rcases s.exec_cases keepsPlace a with ⟨-, heq⟩ | ⟨henabled, heq⟩
  · rw [heq]
    exact .of_window h (List.Sublist.refl _) (List.Sublist.refl _)
  · rw [heq]
    cases a with
    | arrive publish =>
      refine ⟨?_, kept_of_subset fun _ => id⟩
      have harrive := Distinct.arrive h
        (x := .forward ⟨s.arrived, { publish with dup := false, packetId := none }⟩) rfl
      rwa [← onTheWay_append] at harrive
    | timeouts now expired =>
      obtain ⟨hseparate, hsub⟩ := h.timeoutLoop now expired s.inflight.queues.entries.length
      exact ⟨hseparate, kept_of_subset hsub.subset⟩
    | deliver now expired sent => exact h.deliver keepsPlace now (ha henabled.1 henabled.2)
    | processMessage now sent => exact h.processMessage keepsPlace now sent
    | puback k => exact hremove k _
    | pubrec k now sent => exact h.received k now sent
    | pubcomp k => exact hremove k _

theorem mem_keys_deliver_new {queue : List Delivery} (hqueue : s.queue = d :: queue)
    (hneeds : needsId d.publish = true) (hk : s.inflight.nextId.1 = some k) (keepsPlace : Bool) (now : ℤ) :
    k ∈ (s.deliver keepsPlace now false true).inflight.queues.keys ∧
      (s.deliver keepsPlace now false true).onTheWay = onTheWay { s with queue } := by
  obtain ⟨hqos, -⟩ := of_decide_eq_true hneeds
  unfold Outbound.deliver
  rw [hqueue]
  dsimp only
  rw [if_neg Bool.false_ne_true, if_pos hneeds]
  cases hnext : s.inflight.nextId with
  | mk r inflight =>
    obtain rfl : r = some k := (congrArg Prod.fst hnext).symm.trans hk
    have hmem (status : MomentStatus) (d : Delivery) (hd : d.publish.packetId = some k) :
        k ∈ (inflight.pushBack keepsPlace ⟨d, status, now⟩).queues.keys := by
      unfold OutInflight.pushBack
      rw [hd]
      exact DequeMap.mem_keys.2 ⟨_, DequeMap.mem_insert.2 (.inr rfl)⟩
    dsimp only [Outbound.sendPublish]
    rw [if_pos rfl]
    cases hqos' : d.publish.qos with
    | atMostOnce => exact absurd hqos' hqos
    | atLeastOnce | exactlyOnce => exact ⟨hmem _ _ rfl, rfl⟩

/-- A step leaves every id with its message exactly if it is clear. -/
theorem Separate.undisturbed_iff (h : Separate s) (keepsPlace : Bool) (a : Action) :
    Undisturbed keepsPlace s a ↔ s.Clear a := by
  constructor
  · intro hstep
    cases a with
    | deliver now expired sent =>
      rintro hrun hcredit rfl rfl d hd hneeds k hmem
      obtain ⟨queue, hqueue⟩ := head?_eq_some_iff.1 hd
      have hk : k ∉ s.inflight.queues.keys := fun hkeys => h.notMem hkeys hmem
      refine (s.inflight.nextId_ne_iff hk).1 fun hnext => ?_
      have hisolated := hstep.isolated k
      rw [Outbound.exec, if_pos ⟨hrun, hcredit⟩] at hisolated
      obtain ⟨hkeys, hway⟩ := mem_keys_deliver_new hqueue hneeds hnext keepsPlace now
      refine hisolated hkeys ?_
      rw [hway, ← reserved_onTheWay_of_needsId hqueue hneeds]
      exact hmem
    | _ => trivial
  · intro hclear
    have hapart := h.exec keepsPlace hclear
    exact ⟨fun k hk => hapart.separate.notMem hk, hapart.kept⟩

/-- From any state in which no id is used twice, with messages that keep their ids on the way between new
ones: after `advance_next_id`, no step of the event loop disturbs them exactly if every step is clear. -/
theorem isolated_iff (keepsPlace : Bool) (s : Outbound) (h : Separate s) (maxReserved : UInt16)
    (actions : List Action) :
    Along (exec keepsPlace) (Undisturbed keepsPlace)
        { s with inflight := s.inflight.advanceNextId maxReserved } actions ↔
      Along (exec keepsPlace) Clear { s with inflight := s.inflight.advanceNextId maxReserved }
        actions := by
  have hadvanced : Separate { s with inflight := s.inflight.advanceNextId maxReserved } := h
  exact along_congr Separate (fun _ _ hs ha => (hs.exec keepsPlace ha).separate)
    (fun _ a hs => hs.undisturbed_iff keepsPlace a) hadvanced actions

def behindNew : Outbound :=
  { init 16 0 0 1000 with
    queue := [⟨0, ⟨false, false, .atLeastOnce, "t", none, [], none⟩⟩]
    rx := [.forward ⟨7, ⟨true, false, .atLeastOnce, "t", some ⟨3, by decide⟩, [], none⟩⟩] }

theorem isolated_iff_behind_new :
    Along (exec true) (Undisturbed true)
      { behindNew with inflight := behindNew.inflight.advanceNextId 3 }
      [.deliver 0 false true, .processMessage 1 true, .deliver 2 false true] := by
  have hs : Separate behindNew := ⟨by decide, by decide⟩
  refine (isolated_iff true behindNew hs 3 _).2 ⟨?_, trivial, ?_, trivial⟩
  · rintro - - - - d - - k hk
    left
    rw [mem_singleton.1 hk]
    rfl
  · rintro - - - - d hd hneeds
    exfalso
    revert d
    decide +kernel

theorem lastId_ne_zero : (65535 : UInt16) ≠ 0 := by decide

def lastId : PacketId := ⟨65535, lastId_ne_zero⟩

/-- The id 65535 is taken over while a new message is in the delivery queue.  The new message is given
this id, and the message that is taken over replaces it in the window. -/
theorem carried_over_replaced :
    let s := run true (init 16 0 0 1000)
      [.arrive ⟨false, false, .atLeastOnce, "t", none, [], none⟩, .processMessage 0 true]
    let resumed := s.transferSessionState (fun _ => false)
      ⟨[], [⟨⟨7, ⟨false, false, .atLeastOnce, "t", some lastId, [], none⟩⟩, .unAck, 0⟩]⟩
    let window (s : Outbound) := s.inflight.queues.entries.map fun e => (e.1.1, e.2.delivery.message)
    Separate resumed ∧ ¬ Along (exec true) (Undisturbed true) resumed [.deliver 1 false true] ∧
      window (run true resumed [.deliver 1 false true]) = [(65535, 0)] ∧
      window (run true resumed [.deliver 1 false true, .processMessage 2 true, .deliver 2 false true]) =
        [(65535, 7)] := by
  refine ⟨⟨by decide +kernel, by decide +kernel⟩, fun h => ?_, by decide +kernel, by decide +kernel⟩
  exact h.1.isolated lastId (by decide +kernel) (by decide +kernel)

end FerroMq.Outbound
