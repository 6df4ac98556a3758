import FerroMq.Session.Outbound

/-!
# A PUBLISH is not repeated after the PUBREC

The invariant of the event loop speaks of the inflight window, of the messages on their way and of what was
exchanged with the client.  Every step that meets `InTime` keeps it (`Inv.exec`).  A PUBREC that comes while its
message is on the way finds no entry, and the PUBLISH is sent again (`repeated_on_the_way`).
-/

namespace FerroMq.Outbound

open Lib Codec List

/-! ## Traces -/

variable {t : List DeliveryEvent} {e : DeliveryEvent} {k : PacketId} {m : ℕ}

theorem current_concat (k : PacketId) (t : List DeliveryEvent) (e : DeliveryEvent) :
    current k (t ++ [e]) = next k (current k t) e :=
  foldl_concat ..

/-- The PUBREC of the message was processed. -/
def Received (t : List DeliveryEvent) (k : PacketId) (m : ℕ) : Prop :=
  ∃ pre mid, t = pre ++ .pubrec k :: mid ∧ current k pre = some m

/-- The PUBREC of a message was processed, and no PUBCOMP since. -/
def Releasing (t : List DeliveryEvent) (k : PacketId) : Prop :=
  ∃ pre mid m, t = pre ++ .pubrec k :: mid ∧ current k pre = some m ∧ .pubcomp k ∉ mid

theorem received_concat :
    Received (t ++ [e]) k m ↔ Received t k m ∨ e = .pubrec k ∧ current k t = some m := by
  constructor
  · rintro ⟨pre, mid, h, hm⟩
    rcases concat_eq_append_cons h with ⟨rfl, rfl, -⟩ | ⟨mid', rfl, ht⟩
    · exact .inr ⟨rfl, hm⟩
    · exact .inl ⟨pre, mid', ht, hm⟩
  · rintro (⟨pre, mid, rfl, hm⟩ | ⟨rfl, hm⟩)
    · exact ⟨pre, mid ++ [e], by simp, hm⟩
    · exact ⟨t, [], rfl, hm⟩

theorem releasing_concat :
    Releasing (t ++ [e]) k ↔
      Releasing t k ∧ e ≠ .pubcomp k ∨ e = .pubrec k ∧ (current k t).isSome := by
  constructor
  · rintro ⟨pre, mid, m, h, hm, hmid⟩
    rcases concat_eq_append_cons h with ⟨rfl, rfl, -⟩ | ⟨mid', rfl, ht⟩
    · exact .inr ⟨rfl, Option.isSome_iff_exists.2 ⟨m, hm⟩⟩
    · refine .inl ⟨⟨pre, mid', m, ht, hm, fun hmem => hmid (mem_append_left _ hmem)⟩, ?_⟩
      rintro rfl
      exact hmid (mem_append_right _ (mem_singleton_self _))
  · rintro (⟨⟨pre, mid, m, rfl, hm, hmid⟩, he⟩ | ⟨rfl, hsome⟩)
    · refine ⟨pre, mid ++ [e], m, by simp, hm, fun hmem => ?_⟩
      rcases mem_append.1 hmem with hmem | hmem
      · exact hmid hmem
      · exact he (mem_singleton.1 hmem).symm
    · obtain ⟨m, hm⟩ := Option.isSome_iff_exists.1 hsome
      exact ⟨t, [], m, rfl, hm, fun h => nomatch h⟩

/-- The message may be sent under the id. -/
def MaySend (t : List DeliveryEvent) (k : PacketId) (m : ℕ) : Prop :=
  ¬ Received t k m ∧ ¬ Releasing t k

theorem MaySend.concat (h : MaySend t k m) (he : e = .pubrec k → current k t = none) :
    MaySend (t ++ [e]) k m := by
  constructor
  · rw [received_concat]
    rintro (hr | ⟨hpubrec, hm⟩)
    · exact h.1 hr
    · exact nomatch (he hpubrec).symm.trans hm
  · rw [releasing_concat]
    rintro (hr | ⟨hpubrec, hsome⟩)
    · exact h.2 hr.1
    · rw [he hpubrec] at hsome
      exact nomatch hsome

/-- The message was sent under the id, and may be sent again. -/
structure MayResend (t : List DeliveryEvent) (k : PacketId) (m : ℕ) : Prop where
  sent : ∃ qos, .publish k m qos ∈ t
  maySend : MaySend t k m

theorem MayResend.concat (h : MayResend t k m) (he : e = .pubrec k → current k t = none) :
    MayResend (t ++ [e]) k m where
  sent := h.sent.imp fun _ hmem => mem_append_left _ hmem
  maySend := h.maySend.concat he

theorem current_concat_of_ne (hpublish : ∀ m qos, e ≠ .publish k m qos) (hpubcomp : e ≠ .pubcomp k) :
    current k (t ++ [e]) = current k t := by
  rw [current_concat]
  cases e with
  | publish k' m qos => exact if_neg fun hk => hpublish m qos (by rw [hk])
  | pubcomp k' => exact if_neg fun hk => hpubcomp (by rw [hk])
  | puback k' | pubrec k' | pubrel k' => rfl

theorem publish_mem_of_current (h : current k t = some m) : .publish k m .exactlyOnce ∈ t := by
  induction t using List.reverseRecOn with
  | nil => exact nomatch h
  | append_singleton t e ih =>
    by_cases hpublish : ∃ m' qos, e = .publish k m' qos
    · obtain ⟨m', qos, rfl⟩ := hpublish
      rw [current_concat, next, if_pos rfl] at h
      split_ifs at h with hqos
      obtain rfl := Option.some.inj h
      rw [hqos]
      exact mem_append_right _ (mem_singleton_self _)
    · by_cases hpubcomp : e = .pubcomp k
      · rw [current_concat, hpubcomp, next, if_pos rfl] at h
        exact nomatch h
      · rw [current_concat_of_ne (fun m' qos he => hpublish ⟨m', qos, he⟩) hpubcomp] at h
        exact mem_append_left _ (ih h)

theorem Received.publish_mem (h : Received t k m) : .publish k m .exactlyOnce ∈ t := by
  obtain ⟨pre, mid, rfl, hm⟩ := h
  exact mem_append_left _ (publish_mem_of_current hm)

theorem neverRepeated_nil : NeverRepeated [] := by
  rintro k pre mid post m m' qos h
  exact absurd h.symm (by simp)

theorem NeverRepeated.concat (h : NeverRepeated t)
    (he : ∀ k m qos, e = .publish k m qos → MaySend t k m) : NeverRepeated (t ++ [e]) := by
  intro k pre mid post m m' qos htrace hm
  rw [← cons_append, ← append_assoc] at htrace
  rcases concat_eq_append_cons htrace with ⟨ht, hpublish, -⟩ | ⟨post', -, ht⟩
  · obtain ⟨hreceived, hreleasing⟩ := he k m' qos hpublish
    constructor
    · rintro rfl
      exact hreceived ⟨pre, mid, ht, hm⟩
    · by_contra hmid
      exact hreleasing ⟨pre, mid, m, ht, hm, hmid⟩
  · refine h k pre mid post' m m' qos ?_ hm
    rw [ht, append_assoc, cons_append]

/-! ## Messages on their way -/

def reserved : SessionMessage → Option PacketId
  | .forward d => if d.publish.dup then d.publish.packetId else none
  | .sendRerelease m => m.delivery.publish.packetId

def released : SessionMessage → Option PacketId
  | .forward _ => none
  | .sendRerelease m => m.delivery.publish.packetId

def fresh : SessionMessage → Option ℕ
  | .forward d => if d.publish.dup then none else some d.message
  | .sendRerelease _ => none

def onTheWay (s : Outbound) : List SessionMessage := s.queue.map .forward ++ s.rx

def InTime (s : Outbound) : Action → Prop
  | .arrive _ | .processMessage .. | .pubcomp _ => True
  | .timeouts now expired => ∀ e ∈ s.inflight.queues.entries, e.2.status = .unComplete →
      e.2.timeout s.inflight.interval now = true → expired e.2 = false
  | .deliver .. => ∀ d ∈ s.queue.head?, needsId d.publish = true → ∀ k ∈ s.inflight.nextId.1,
      k ∉ s.onTheWay.filterMap reserved
  | .puback k => current k s.trace = none
  | .pubrec k _ _ => (current k s.trace).isSome = true →
      k ∈ s.inflight.queues.keys ∨ k ∈ s.onTheWay.filterMap released

instance (s : Outbound) : (a : Action) → Decidable (s.InTime a)
  | .arrive _ | .processMessage .. | .pubcomp _ => inferInstanceAs (Decidable True)
  | .timeouts now expired => inferInstanceAs (Decidable (∀ e ∈ s.inflight.queues.entries,
      e.2.status = .unComplete → e.2.timeout s.inflight.interval now = true → expired e.2 = false))
  | .deliver .. => inferInstanceAs (Decidable (∀ d ∈ s.queue.head?, needsId d.publish = true →
      ∀ k ∈ s.inflight.nextId.1, k ∉ s.onTheWay.filterMap reserved))
  | .puback k => inferInstanceAs (Decidable (current k s.trace = none))
  | .pubrec k _ _ => inferInstanceAs (Decidable ((current k s.trace).isSome = true →
      k ∈ s.inflight.queues.keys ∨ k ∈ s.onTheWay.filterMap released))

/-! ## The invariant -/

structure Inv (w : DequeMap PacketId OutInflightMessage) (way : List SessionMessage) (arrived : ℕ)
    (t : List DeliveryEvent) : Prop where
  never : NeverRepeated t
  keyed : ∀ x ∈ w.entries, x.2.delivery.publish.packetId = some x.1
  /-- An id is used once. -/
  ids : (w.keys ++ way.filterMap reserved).Nodup
  nodup : (way.filterMap fresh).Nodup
  new : ∀ m ∈ way.filterMap fresh, m < arrived
  sent : ∀ k m qos, .publish k m qos ∈ t → m < arrived ∧ m ∉ way.filterMap fresh
  again : ∀ d, .forward d ∈ way → d.publish.dup = true →
    ∃ k, d.publish.packetId = some k ∧ MayResend t k d.message
  waiting : ∀ x ∈ w.entries, x.2.status ≠ .unComplete → MayResend t x.1 x.2.delivery.message
  /-- The id of a message that was received is not free. -/
  releasing : ∀ k, Releasing t k → (current k t).isSome ∧
    (k ∈ way.filterMap released ∨ ∃ m, (k, m) ∈ w.entries ∧ m.status = .unComplete)

variable {w w' : DequeMap PacketId OutInflightMessage} {way way' : List SessionMessage} {arrived : ℕ}

theorem inv_init : Inv .empty [] 0 [] where
  never := neverRepeated_nil
  keyed _ h := nomatch h
  ids := nodup_nil
  nodup := nodup_nil
  new _ h := nomatch h
  sent _ _ _ h := nomatch h
  again _ h := nomatch h
  waiting _ h := nomatch h
  releasing := by
    rintro k ⟨pre, mid, m, h, -⟩
    exact absurd h.symm (by simp)

theorem reserved_of_released {x : SessionMessage} (h : released x = some k) : reserved x = some k := by
  cases x with
  | forward d => exact nomatch h
  | sendRerelease m => exact h

theorem mem_reserved_of_mem_released (h : k ∈ way.filterMap released) :
    k ∈ way.filterMap reserved := by
  obtain ⟨x, hx, hk⟩ := mem_filterMap.1 h
  exact mem_filterMap.2 ⟨x, hx, reserved_of_released hk⟩

variable {d : Delivery}

theorem Inv.arrive (h : Inv w way arrived t) (hdup : d.publish.dup = false)
    (hmessage : d.message = arrived) : Inv w (way ++ [.forward d]) (arrived + 1) t := by
  have hnot : ¬ d.publish.dup = true := by
    rw [hdup]
    exact Bool.false_ne_true
  have hreserved : reserved (.forward d) = none := if_neg hnot
  have hfresh : fresh (.forward d) = some arrived := (if_neg hnot).trans (congrArg some hmessage)
  refine { never := h.never, keyed := h.keyed, waiting := h.waiting, ids := ?_, nodup := ?_, new := ?_,
           sent := ?_, again := ?_, releasing := ?_ }
  · rw [filterMap_append, filterMap_cons_none hreserved, filterMap_nil, append_nil]
    exact h.ids
  · rw [filterMap_append, filterMap_cons_some hfresh]
    exact h.nodup.append (nodup_singleton _)
      (disjoint_singleton.2 fun hmem => lt_irrefl _ (h.new _ hmem))
  · intro m hm
    rw [filterMap_append, filterMap_cons_some hfresh, mem_append] at hm
    rcases hm with hm | hm
    · exact (h.new m hm).trans (Nat.lt_succ_self _)
    · exact mem_singleton.1 hm ▸ Nat.lt_succ_self _
  · intro k m qos hm
    obtain ⟨hlt, hold⟩ := h.sent k m qos hm
    rw [filterMap_append, filterMap_cons_some hfresh, mem_append]
    exact ⟨hlt.trans (Nat.lt_succ_self _),
      fun hor => hor.elim hold fun hmem => hlt.ne (mem_singleton.1 hmem)⟩
  · intro d' hd' hdup'
    rcases mem_append.1 hd' with hd' | hd'
    · exact h.again d' hd' hdup'
    · obtain rfl := SessionMessage.forward.inj (mem_singleton.1 hd')
      exact absurd hdup' hnot
  · rw [filterMap_append, filterMap_cons_none rfl, filterMap_nil, append_nil]
    exact h.releasing

theorem Inv.lose (h : Inv w way arrived t) (hway : way'.Sublist way)
    (hreleased : way'.filterMap released = way.filterMap released) : Inv w way' arrived t where
  never := h.never
  keyed := h.keyed
  ids := h.ids.sublist ((List.Sublist.refl _).append (hway.filterMap _))
  nodup := h.nodup.sublist (hway.filterMap _)
  new m hm := h.new m ((hway.filterMap _).subset hm)
  sent k m qos hm :=
    ⟨(h.sent k m qos hm).1, fun hmem => (h.sent k m qos hm).2 ((hway.filterMap _).subset hmem)⟩
  again d hd := h.again d (hway.subset hd)
  waiting := h.waiting
  releasing := by
    rw [hreleased]
    exact h.releasing

theorem Inv.leave (h : Inv w way arrived t) {m : OutInflightMessage}
    (hw : w.entries = (k, m) :: w'.entries) {x : SessionMessage}
    (hx : m.status ≠ .unComplete ∧
        x = .forward { m.delivery with publish := { m.delivery.publish with dup := true } } ∨
      x = .sendRerelease m) : Inv w' (way ++ [x]) arrived t := by
  have hhead : (k, m) ∈ w.entries := hw ▸ mem_cons_self
  have hmem {y : PacketId × OutInflightMessage} (hy : y ∈ w'.entries) : y ∈ w.entries :=
    hw ▸ mem_cons_of_mem _ hy
  have hk : m.delivery.publish.packetId = some k := h.keyed _ hhead
  have hreserved : reserved x = some k := by
    rcases hx with ⟨-, rfl⟩ | rfl
    all_goals exact hk
  have hfresh : fresh x = none := by
    rcases hx with ⟨-, rfl⟩ | rfl
    · rfl
    · rfl
  have hfreshs : (way ++ [x]).filterMap fresh = way.filterMap fresh := by
    rw [filterMap_append, filterMap_cons_none hfresh, filterMap_nil, append_nil]
  refine { never := h.never, keyed := fun y hy => h.keyed y (hmem hy), ids := ?_, nodup := ?_,
           new := ?_, sent := ?_, again := ?_, waiting := fun y hy => h.waiting y (hmem hy),
           releasing := ?_ }
  · have hkeys : w.keys = k :: w'.keys := by
      unfold DequeMap.keys
      rw [hw, map_cons]
    have hids := h.ids
    rw [hkeys, cons_append] at hids
    rw [filterMap_append, filterMap_cons_some hreserved, filterMap_nil,
      ← append_assoc]
    exact (perm_append_singleton k _).nodup_iff.2 hids
  · exact hfreshs ▸ h.nodup
  · exact hfreshs ▸ h.new
  · exact hfreshs ▸ h.sent
  · intro d hd hdup
    rcases mem_append.1 hd with hd | hd
    · exact h.again d hd hdup
    · rcases hx with ⟨hstatus, rfl⟩ | rfl
      · obtain rfl := SessionMessage.forward.inj (mem_singleton.1 hd)
        exact ⟨k, hk, h.waiting _ hhead hstatus⟩
      · exact nomatch mem_singleton.1 hd
  · intro k' hk'
    obtain ⟨hcurrent, hk'⟩ := h.releasing k' hk'
    refine ⟨hcurrent, ?_⟩
    rw [filterMap_append, mem_append]
    rcases hk' with hk' | ⟨m', hm', hstatus'⟩
    · exact .inl (.inl hk')
    · rcases mem_cons.1 (hw ▸ hm') with heq | hm'
      · obtain ⟨rfl, rfl⟩ := Prod.mk.inj heq
        rcases hx with ⟨hstatus, -⟩ | rfl
        · exact absurd hstatus' hstatus
        · exact .inl (.inr (mem_filterMap.2 ⟨_, mem_singleton_self _, hk⟩))
      · exact .inr ⟨m', hm', hstatus'⟩

theorem Inv.note (h : Inv w way arrived t) (hpublish : ∀ k m qos, e ≠ .publish k m qos)
    (hkeys : w'.keys.Sublist w.keys)
    (hkeyed : ∀ x ∈ w'.entries, x.2.delivery.publish.packetId = some x.1)
    (hwaiting : ∀ x ∈ w'.entries, x.2.status ≠ .unComplete →
      x ∈ w.entries ∧ (e = .pubrec x.1 → current x.1 t = none))
    (hagain : ∀ d k, .forward d ∈ way → d.publish.dup = true → d.publish.packetId = some k →
      e = .pubrec k → current k t = none)
    (hreleasing : ∀ k, Releasing (t ++ [e]) k → (current k (t ++ [e])).isSome ∧
      (k ∈ way.filterMap released ∨ ∃ m, (k, m) ∈ w'.entries ∧ m.status = .unComplete)) :
    Inv w' way arrived (t ++ [e]) where
  never := h.never.concat fun k m qos he => absurd he (hpublish k m qos)
  keyed := hkeyed
  ids := h.ids.sublist (hkeys.append (List.Sublist.refl _))
  nodup := h.nodup
  new := h.new
  sent k m qos hm := by
    rcases mem_append.1 hm with hm | hm
    · exact h.sent k m qos hm
    · exact absurd (mem_singleton.1 hm).symm (hpublish k m qos)
  again d hd hdup := by
    obtain ⟨k, hk, hresend⟩ := h.again d hd hdup
    exact ⟨k, hk, hresend.concat (hagain d k hd hdup hk)⟩
  waiting x hx hstatus :=
    (h.waiting x (hwaiting x hx hstatus).1 hstatus).concat (hwaiting x hx hstatus).2
  releasing := hreleasing

theorem Inv.pubrel (h : Inv w way arrived t) (k : PacketId) : Inv w way arrived (t ++ [.pubrel k]) := by
  refine h.note (fun _ _ _ he => nomatch he) (List.Sublist.refl _) h.keyed
    (fun x hx _ => ⟨hx, fun he => nomatch he⟩) (fun _ _ _ _ _ he => nomatch he) fun k' hk' => ?_
  rcases releasing_concat.1 hk' with ⟨hk', -⟩ | ⟨he, -⟩
  · rw [current_concat]
    exact h.releasing k' hk'
  · exact nomatch he

theorem Inv.acknowledge (h : Inv w way arrived t)
    (he : e = .puback k ∧ current k t = none ∨ e = .pubcomp k) :
    Inv (w.remove k) way arrived (t ++ [e]) := by
  have hpublish (k' : PacketId) (m : ℕ) (qos : QoS) : e ≠ .publish k' m qos := by
    rcases he with ⟨rfl, -⟩ | rfl
    all_goals exact fun he => nomatch he
  have hpubrec (k' : PacketId) : e ≠ .pubrec k' := by
    rcases he with ⟨rfl, -⟩ | rfl
    all_goals exact fun he => nomatch he
  refine h.note hpublish (w.keys_remove_sublist k) (fun x hx => h.keyed x (DequeMap.mem_remove.1 hx).1)
    (fun x hx _ => ⟨(DequeMap.mem_remove.1 hx).1, fun heq => absurd heq (hpubrec x.1)⟩)
    (fun _ k' _ _ _ heq => absurd heq (hpubrec k')) fun k' hk' => ?_
  rcases releasing_concat.1 hk' with ⟨hk', hpubcomp⟩ | ⟨heq, -⟩
  · obtain ⟨hcurrent, hk'⟩ := h.releasing k' hk'
    have hne : k' ≠ k := by
      rintro rfl
      rcases he with ⟨-, hnone⟩ | rfl
      · rw [hnone] at hcurrent
        exact nomatch hcurrent
      · exact hpubcomp rfl
    rw [current_concat_of_ne (hpublish k') hpubcomp]
    exact ⟨hcurrent, hk'.imp_right fun ⟨m, hm, hstatus⟩ =>
      ⟨m, DequeMap.mem_remove.2 ⟨hm, hne⟩, hstatus⟩⟩
  · exact absurd heq (hpubrec k')

theorem Inv.notMem_released (h : Inv w way arrived t) (hd : .forward d ∈ way)
    (hdup : d.publish.dup = true) (hk : d.publish.packetId = some k) :
    k ∉ w.keys ∧ k ∉ way.filterMap released := by
  have hreserved : reserved (.forward d) = some k := (if_pos hdup).trans hk
  obtain ⟨-, hway, hdisjoint⟩ := nodup_append'.1 h.ids
  refine ⟨fun hmem => hdisjoint hmem (mem_filterMap.2 ⟨_, hd, hreserved⟩), fun hmem => ?_⟩
  obtain ⟨x, hx, hxk⟩ := mem_filterMap.1 hmem
  have hne : SessionMessage.forward d ≠ x := by
    rintro rfl
    exact nomatch hxk
  have hpairwise := pairwise_filterMap.1 hway
  have hsymm : Std.Symm fun a b : SessionMessage =>
      ∀ i, reserved a = some i → ∀ j, reserved b = some j → i ≠ j :=
    ⟨fun _ _ hab i hi j hj heq => hab j hj i hi heq.symm⟩
  exact hpairwise.forall hd hx hne k hreserved k (reserved_of_released hxk) rfl

theorem Inv.pubrec (h : Inv w way arrived t) (now : ℤ)
    (hk : (current k t).isSome = true → k ∈ w.keys ∨ k ∈ way.filterMap released) :
    Inv (w.modify k fun m => m.withStatus .unComplete now) way arrived (t ++ [.pubrec k]) := by
  refine h.note (fun _ _ _ he => nomatch he) (by rw [DequeMap.keys_modify]) ?_ ?_ ?_ ?_
  · intro x hx
    rcases DequeMap.mem_modify.1 hx with ⟨hx, -⟩ | ⟨m, hm, rfl⟩
    · exact h.keyed x hx
    · exact h.keyed (k, m) hm
  · intro x hx hstatus
    rcases DequeMap.mem_modify.1 hx with ⟨hx, hne⟩ | ⟨m, hm, rfl⟩
    · exact ⟨hx, fun he => absurd (DeliveryEvent.pubrec.inj he).symm hne⟩
    · exact absurd rfl hstatus
  · intro d k' hd hdup hk' he
    obtain rfl := DeliveryEvent.pubrec.inj he
    obtain ⟨hkeys, hreleased⟩ := h.notMem_released hd hdup hk'
    exact Option.not_isSome_iff_eq_none.1 fun hsome => (hk hsome).elim hkeys hreleased
  · intro k' hk'
    rw [current_concat]
    rcases releasing_concat.1 hk' with ⟨hk', -⟩ | ⟨he, hsome⟩
    · obtain ⟨hcurrent, hk'⟩ := h.releasing k' hk'
      refine ⟨hcurrent, hk'.imp_right fun ⟨m, hm, hstatus⟩ => ?_⟩
      rcases eq_or_ne k' k with rfl | hne
      · exact ⟨_, DequeMap.mem_modify.2 (.inr ⟨m, hm, rfl⟩), rfl⟩
      · exact ⟨m, DequeMap.mem_modify.2 (.inl ⟨hm, hne⟩), hstatus⟩
    · obtain rfl := DeliveryEvent.pubrec.inj he
      refine ⟨hsome, (hk hsome).symm.imp_right fun hkeys => ?_⟩
      obtain ⟨m, hm⟩ := DequeMap.mem_keys.1 hkeys
      exact ⟨_, DequeMap.mem_modify.2 (.inr ⟨m, hm, rfl⟩), rfl⟩

theorem Inv.send (h : Inv w way arrived t) (hd : d.publish.packetId = some k)
    (hk : k ∉ w.keys ∧ k ∉ way.filterMap reserved) (hsend : MaySend t k d.message)
    (hm : d.message < arrived ∧ d.message ∉ way.filterMap fresh) (keepsPlace : Bool) (qos : QoS)
    (status : MomentStatus) (now : ℤ) :
    Inv (w.insert keepsPlace k ⟨d, status, now⟩) way arrived (t ++ [.publish k d.message qos]) := by
  refine { never := h.never.concat ?_, keyed := ?_, ids := ?_, nodup := h.nodup, new := h.new,
           sent := ?_, again := ?_, waiting := ?_, releasing := ?_ }
  · intro k' m' qos' he
    obtain ⟨rfl, rfl, -⟩ := DeliveryEvent.publish.inj he
    exact hsend
  · intro x hx
    rcases DequeMap.mem_insert.1 hx with ⟨hx, -⟩ | rfl
    · exact h.keyed x hx
    · exact hd
  · rw [DequeMap.keys_insert hk.1, append_assoc]
    refine (perm_middle).nodup_iff.2 (nodup_cons.2 ⟨fun hmem => ?_, h.ids⟩)
    exact (mem_append.1 hmem).elim hk.1 hk.2
  · intro k' m' qos' hmem
    rcases mem_append.1 hmem with hmem | hmem
    · exact h.sent k' m' qos' hmem
    · obtain ⟨-, rfl, -⟩ := DeliveryEvent.publish.inj (mem_singleton.1 hmem)
      exact hm
  · intro d' hd' hdup
    obtain ⟨k', hk', hresend⟩ := h.again d' hd' hdup
    exact ⟨k', hk', hresend.concat fun he => nomatch he⟩
  · intro x hx hstatus
    rcases DequeMap.mem_insert.1 hx with ⟨hx, -⟩ | rfl
    · exact (h.waiting x hx hstatus).concat fun he => nomatch he
    · exact ⟨⟨qos, mem_append_right _ (mem_singleton_self _)⟩,
        hsend.concat fun he => nomatch he⟩
  · intro k' hk'
    rcases releasing_concat.1 hk' with ⟨hk', -⟩ | ⟨he, -⟩
    · have hne : k' ≠ k := fun heq => hsend.2 (heq ▸ hk')
      obtain ⟨hcurrent, hk'⟩ := h.releasing k' hk'
      refine ⟨?_, hk'.imp_right fun ⟨m', hm', hstatus⟩ =>
        ⟨m', DequeMap.mem_insert.2 (.inl ⟨hm', hne⟩), hstatus⟩⟩
      rw [current_concat, next, if_neg hne.symm]
      exact hcurrent
    · exact nomatch he

theorem Inv.rerelease {queue rx : List SessionMessage} {m : OutInflightMessage}
    (h : Inv w (queue ++ .sendRerelease m :: rx) arrived t)
    (hk : m.delivery.publish.packetId = some k) (keepsPlace : Bool) (now : ℤ) :
    Inv (w.insert keepsPlace k ⟨m.delivery, .unComplete, now⟩) (queue ++ rx) arrived t := by
  have hreserved : reserved (.sendRerelease m) = some k := hk
  have hreleased : released (.sendRerelease m) = some k := hk
  have hfresh : (queue ++ rx).filterMap fresh = (queue ++ .sendRerelease m :: rx).filterMap fresh := by
    rw [filterMap_append, filterMap_append, filterMap_cons_none rfl]
  have hmem {x : SessionMessage} (hx : x ∈ queue ++ rx) : x ∈ queue ++ .sendRerelease m :: rx :=
    ((sublist_cons_self _ _).append_left queue).subset hx
  have hids := h.ids
  rw [filterMap_append, filterMap_cons_some hreserved, ← append_assoc] at hids
  have hids := nodup_cons.1 (perm_middle.nodup_iff.1 hids)
  rw [append_assoc, ← filterMap_append] at hids
  have hkeys : k ∉ w.keys := fun hmem => hids.1 (mem_append_left _ hmem)
  refine { never := h.never, keyed := ?_, ids := ?_, nodup := hfresh ▸ h.nodup, new := hfresh ▸ h.new,
           sent := hfresh ▸ h.sent, again := fun d hd => h.again d (hmem hd), waiting := ?_,
           releasing := ?_ }
  · intro x hx
    rcases DequeMap.mem_insert.1 hx with ⟨hx, -⟩ | rfl
    · exact h.keyed x hx
    · exact hk
  · rw [DequeMap.keys_insert hkeys, append_assoc]
    exact perm_middle.nodup_iff.2 (nodup_cons.2 hids)
  · intro x hx hstatus
    rcases DequeMap.mem_insert.1 hx with ⟨hx, -⟩ | rfl
    · exact h.waiting x hx hstatus
    · exact absurd rfl hstatus
  · intro k' hk'
    obtain ⟨hcurrent, hk'⟩ := h.releasing k' hk'
    refine ⟨hcurrent, ?_⟩
    rcases eq_or_ne k' k with rfl | hne
    · exact .inr ⟨_, DequeMap.mem_insert.2 (.inr rfl), rfl⟩
    · rcases hk' with hk' | ⟨m', hm', hstatus⟩
      · rw [filterMap_append, filterMap_cons_some hreleased, mem_append,
          mem_cons] at hk'
        rw [filterMap_append, mem_append]
        exact .inl (hk'.imp_right fun hor => hor.resolve_left hne)
      · exact .inr ⟨m', DequeMap.mem_insert.2 (.inl ⟨hm', hne⟩), hstatus⟩

/-! ## The steps of the event loop -/

def Sound (s : Outbound) : Prop := Inv s.inflight.queues s.onTheWay s.arrived s.trace

variable {s : Outbound}

theorem onTheWay_append (s : Outbound) (x : SessionMessage) :
    onTheWay { s with rx := s.rx ++ [x] } = s.onTheWay ++ [x] :=
  (append_assoc _ _ _).symm

theorem onTheWay_cons {s : Outbound} {queue : List Delivery}
    (hqueue : s.queue = d :: queue) : s.onTheWay = .forward d :: onTheWay { s with queue } := by
  unfold onTheWay
  rw [hqueue]
  rfl

theorem onTheWay_forward {s : Outbound} {rx : List SessionMessage} (hrx : s.rx = .forward d :: rx) :
    s.onTheWay = onTheWay { s with rx, queue := s.queue ++ [d] } := by
  unfold onTheWay
  rw [hrx, map_append, append_assoc]
  rfl

theorem released_forward (queue : List Delivery) :
    (queue.map SessionMessage.forward).filterMap released = [] :=
  filterMap_eq_nil_iff.2 fun _ hx => by
    obtain ⟨d, -, rfl⟩ := mem_map.1 hx
    rfl

theorem Sound.arrive (h : Sound s) (publish : Publish) : Sound (s.arrive publish) := by
  have harrive := Inv.arrive h
    (d := ⟨s.arrived, { publish with dup := false, packetId := none }⟩) rfl rfl
  rwa [← onTheWay_append] at harrive

theorem Sound.loseQueue (h : Sound s) {queue : List Delivery} (hqueue : queue.Sublist s.queue) :
    Sound { s with queue } := by
  refine Inv.lose h ((hqueue.map _).append_right s.rx) ?_
  change List.filterMap released (queue.map SessionMessage.forward ++ s.rx) =
    (s.queue.map SessionMessage.forward ++ s.rx).filterMap released
  rw [filterMap_append, filterMap_append, released_forward, released_forward]

theorem Sound.reforward (h : Sound s) {inflight : OutInflight} {m : OutInflightMessage}
    (hw : s.inflight.queues.entries = (k, m) :: inflight.queues.entries)
    {expired : OutInflightMessage → Bool} (hexpired : m.status = .unComplete → expired m = false) :
    Sound (reforward expired { s with inflight } m) := by
  have hleave (x : SessionMessage) (hx : m.status ≠ .unComplete ∧
        x = .forward { m.delivery with publish := { m.delivery.publish with dup := true } } ∨
      x = .sendRerelease m) : Sound { s with inflight, rx := s.rx ++ [x] } := by
    have hinv := Inv.leave h hw hx
    rwa [← onTheWay_append] at hinv
  unfold Outbound.reforward
  cases hstatus : m.status with
  | unAck | unReceived => exact hleave _ (.inl ⟨by rw [hstatus]; decide, rfl⟩)
  | unComplete =>
    rw [if_neg (by rw [hexpired hstatus]; decide)]
    exact hleave _ (.inr rfl)

theorem inflight_reforward (expired : OutInflightMessage → Bool) (s : Outbound)
    (m : OutInflightMessage) : (reforward expired s m).inflight = s.inflight := by
  unfold Outbound.reforward
  cases m.status with
  | unAck | unReceived => rfl
  | unComplete =>
    dsimp only
    split_ifs <;> rfl

theorem Sound.timeoutLoop {now : ℤ} {expired : OutInflightMessage → Bool} (n : ℕ) (h : Sound s)
    (hexpired : s.InTime (.timeouts now expired)) : Sound (timeoutLoop now expired n s) := by
  induction n generalizing s with
  | zero => exact h
  | succ n ih =>
    rw [Outbound.timeoutLoop]
    cases hpop : s.inflight.popFrontTimeout now with
    | none => exact h
    | some popped =>
      obtain ⟨m, inflight⟩ := popped
      obtain ⟨htimeout, hinterval, k, hw⟩ := OutInflight.popFrontTimeout_eq_some hpop
      refine ih (h.reforward hw fun hstatus => ?_) ?_
      · exact hexpired (k, m) (hw ▸ mem_cons_self) hstatus htimeout
      · intro x hx
        rw [inflight_reforward] at hx ⊢
        rw [hinterval]
        exact hexpired x (hw ▸ mem_cons_of_mem _ hx)

/-- A message can be sent under its id. -/
structure Ready (s : Outbound) (d : Delivery) (k : PacketId) : Prop where
  packetId : d.publish.packetId = some k
  free : k ∉ s.inflight.queues.keys ∧ k ∉ s.onTheWay.filterMap reserved
  maySend : MaySend s.trace k d.message
  notFresh : d.message < s.arrived ∧ d.message ∉ s.onTheWay.filterMap fresh

theorem Sound.sendPublish (h : Sound s)
    (hd : d.publish.qos ≠ .atMostOnce → ∃ k, Ready s d k) (keepsPlace : Bool) (now : ℤ)
    (sent : Bool) : Sound (sendPublish keepsPlace s d now sent) := by
  unfold Outbound.sendPublish
  cases sent with
  | false => exact h
  | true =>
    rw [if_pos rfl]
    unfold published
    cases hqos : d.publish.qos with
    | atMostOnce =>
      change Inv _ _ _ (s.trace ++ [])
      rw [append_nil]
      exact h
    | atLeastOnce | exactlyOnce =>
      obtain ⟨k, hk⟩ := hd (by rw [hqos]; decide)
      dsimp only [momentStatus, OutInflight.pushBack]
      rw [hk.packetId]
      exact Inv.send h hk.packetId hk.free hk.maySend hk.notFresh keepsPlace _ _ now

theorem Inv.ready_new (h : Inv w (.forward d :: way) arrived t)
    (hneeds : needsId d.publish = true) (hkeys : k ∉ w.keys)
    (hk : k ∉ (SessionMessage.forward d :: way).filterMap reserved) :
    MaySend t k d.message ∧ d.message < arrived ∧ d.message ∉ way.filterMap fresh := by
  have hdup : ¬ d.publish.dup = true := by
    intro hdup
    obtain ⟨k', hk', -⟩ := h.again d mem_cons_self hdup
    rw [needsId, hdup, hk'] at hneeds
    simp at hneeds
  have hfresh : fresh (.forward d) = some d.message := if_neg hdup
  have hmem : d.message ∈ (SessionMessage.forward d :: way).filterMap fresh :=
    mem_filterMap.2 ⟨_, mem_cons_self, hfresh⟩
  refine ⟨⟨fun hreceived => ?_, fun hreleasing => ?_⟩, h.new _ hmem, ?_⟩
  · exact (h.sent _ _ _ hreceived.publish_mem).2 hmem
  · rcases (h.releasing k hreleasing).2 with hreleased | ⟨m, hm, -⟩
    · exact hk (mem_reserved_of_mem_released hreleased)
    · exact hkeys (DequeMap.mem_keys_of_mem hm)
  · have hnodup := h.nodup
    rw [filterMap_cons_some hfresh] at hnodup
    exact (nodup_cons.1 hnodup).1

theorem Inv.ready_again (h : Inv w (.forward d :: way) arrived t) (hdup : d.publish.dup = true) :
    ∃ k, d.publish.packetId = some k ∧ (k ∉ w.keys ∧ k ∉ way.filterMap reserved) ∧
      MaySend t k d.message ∧ d.message < arrived ∧ d.message ∉ way.filterMap fresh := by
  obtain ⟨k, hk, ⟨qos, hmem⟩, hsend⟩ := h.again d mem_cons_self hdup
  have hreserved : reserved (.forward d) = some k := (if_pos hdup).trans hk
  have hfresh : fresh (.forward d) = none := if_pos hdup
  have hids := h.ids
  rw [filterMap_cons_some hreserved] at hids
  have hfree := (nodup_cons.1 (perm_middle.nodup_iff.1 hids)).1
  have hold := h.sent k d.message qos hmem
  rw [filterMap_cons_none hfresh] at hold
  exact ⟨k, hk, ⟨fun hkeys => hfree (mem_append_left _ hkeys),
    fun hway => hfree (mem_append_right _ hway)⟩, hsend, hold⟩

theorem Sound.deliver (h : Sound s) (keepsPlace : Bool) (now : ℤ) (expired sent : Bool)
    (hintime : s.InTime (.deliver now expired sent)) :
    Sound (s.deliver keepsPlace now expired sent) := by
  unfold Outbound.deliver
  cases hqueue : s.queue with
  | nil => exact h
  | cons d queue =>
    have hlose : Sound { s with queue } := h.loseQueue (hqueue ▸ sublist_cons_self d queue)
    have hway := onTheWay_cons hqueue
    have hinv : Inv s.inflight.queues (.forward d :: onTheWay { s with queue }) s.arrived s.trace :=
      hway ▸ h
    dsimp only
    split_ifs with hexpired hneeds
    · exact hlose
    · obtain ⟨hqueues, hfree⟩ := s.inflight.nextIdLoop_spec 65535
      change s.inflight.nextId.2.queues = _ at hqueues
      have hlose' : Sound { s with queue, inflight := s.inflight.nextId.2 } := by
        unfold Sound
        dsimp only
        rw [hqueues]
        exact hlose
      split
      · rename_i inflight hnext
        rw [hnext] at hlose'
        exact hlose'
      · rename_i k inflight hnext
        have hkeys : k ∉ s.inflight.queues.keys :=
          hfree k (congrArg Prod.fst hnext)
        have hk : k ∉ s.onTheWay.filterMap reserved :=
          hintime d (by rw [hqueue]; rfl) hneeds k (congrArg Prod.fst hnext)
        rw [hnext] at hlose' hqueues
        have hready := hinv.ready_new hneeds hkeys (hway ▸ hk)
        refine hlose'.sendPublish (d := { d with publish := { d.publish with packetId := some k } })
          (fun _ => ⟨k, rfl, ⟨?_, fun hmem => hk ?_⟩, hready.1, hready.2⟩) keepsPlace now sent
        · exact hqueues.symm ▸ hkeys
        · rw [hway]
          exact ((sublist_cons_self _ _).filterMap _).subset hmem
    · refine hlose.sendPublish (fun hqos => ?_) keepsPlace now sent
      have hdup : d.publish.dup = true := by
        by_contra hdup
        exact hneeds (decide_eq_true ⟨hqos, .inl (eq_false_of_ne_true hdup)⟩)
      obtain ⟨k, hk, hfree, hsend, hold⟩ := hinv.ready_again hdup
      exact ⟨k, hk, hfree, hsend, hold⟩

theorem enqueue_sublist (queueCap : ℕ) (queue : List Delivery) (d : Delivery) :
    (enqueue queueCap queue d).Sublist (queue ++ [d]) := by
  unfold enqueue
  split_ifs
  · exact List.Sublist.refl _
  · exact sublist_append_left _ _
  · exact (tail_sublist queue).append_right [d]
  · exact (tail_sublist queue).trans (sublist_append_left _ _)

theorem Sound.processMessage (h : Sound s) (keepsPlace : Bool) (now : ℤ) (sent : Bool) :
    Sound (s.processMessage keepsPlace now sent) := by
  unfold Outbound.processMessage
  cases hrx : s.rx with
  | nil => exact h
  | cons x rx =>
    cases x with
    | forward d =>
      have hpass : Sound { s with rx, queue := s.queue ++ [d] } := by
        unfold Sound
        rw [← onTheWay_forward hrx]
        exact h
      exact hpass.loseQueue (enqueue_sublist s.queueCap s.queue d)
    | sendRerelease m =>
      have hinv : Inv s.inflight.queues (s.queue.map .forward ++ .sendRerelease m :: rx) s.arrived
          s.trace := hrx ▸ h
      dsimp only
      unfold Outbound.sendRerelease
      cases hk : m.delivery.publish.packetId with
      | none =>
        refine Inv.lose hinv ((sublist_cons_self _ _).append_left _) ?_
        have hreleased : released (.sendRerelease m) = none := hk
        rw [filterMap_append, filterMap_cons_none hreleased, ← filterMap_append]
        rfl
      | some k =>
        have hrerelease := hinv.rerelease hk keepsPlace now
        dsimp only [OutInflight.pushBack]
        rw [hk]
        split_ifs
        · exact hrerelease.pubrel k
        · exact hrerelease

theorem Sound.received (h : Sound s) {k : PacketId} {now : ℤ} {sent : Bool}
    (hintime : s.InTime (.pubrec k now sent)) : Sound (s.received k now sent) := by
  have hpubrec := Inv.pubrec h now hintime
  unfold Outbound.received
  dsimp only
  split_ifs
  · have hpubrel := hpubrec.pubrel k
    rwa [append_assoc] at hpubrel
  · exact hpubrec

theorem Sound.exec (h : Sound s) (keepsPlace : Bool) (a : Action) (ha : s.InTime a) :
    Sound (s.exec keepsPlace a) := by
  rcases s.exec_cases keepsPlace a with ⟨-, heq⟩ | ⟨-, heq⟩
  · rw [heq]
    exact h
  · rw [heq]
    cases a with
    | arrive publish => exact h.arrive publish
    | timeouts now expired => exact h.timeoutLoop _ ha
    | deliver now expired sent => exact h.deliver keepsPlace now expired sent ha
    | processMessage now sent => exact h.processMessage keepsPlace now sent
    | puback k => exact Inv.acknowledge h (.inl ⟨rfl, ha⟩)
    | pubrec k now sent => exact h.received ha
    | pubcomp k => exact Inv.acknowledge h (.inr rfl)

theorem sound_init (cap : UInt64) (retryInterval expiryInterval : ℤ) (queueCap : ℕ) :
    Sound (init cap retryInterval expiryInterval queueCap) :=
  inv_init

theorem sound_run (keepsPlace : Bool) {actions : List Action} (hs : Sound s)
    (h : Along (exec keepsPlace) InTime s actions) : Sound (run keepsPlace s actions) :=
  h.invariant (fun _ a ha hinv => Sound.exec hinv keepsPlace a ha) hs

end FerroMq.Outbound
