import FerroMq.Lib.Cyclic
import FerroMq.Session.Takeover

/-!
# Packet ids of messages to the client

`next_id` takes the first value of a counter that is not registered in the inflight window.  It looks at 65535
of the 65536 values, 0 among them, so it does not find a free id right behind the counter (`allocatesAll_iff`).
-/

namespace FerroMq

open Lib Codec List

/-! ## All packet ids -/

section AllIds

def allIds : List PacketId :=
  (List.finRange UInt16.size).filterMap fun n =>
    if h : UInt16.ofFin n ≠ 0 then some ⟨UInt16.ofFin n, h⟩ else none

theorem mem_allIds (k : PacketId) : k ∈ allIds := by
  refine mem_filterMap.2 ⟨k.1.toFin, mem_finRange _, ?_⟩
  rw [UInt16.ofFin_toFin]
  exact dif_pos k.2

theorem nodup_allIds : allIds.Nodup := by
  refine (nodup_finRange _).filterMap fun n n' k hn hn' => ?_
  rw [Option.mem_def, Option.dite_none_right_eq_some] at hn hn'
  obtain ⟨_, hk⟩ := hn
  obtain ⟨_, hk'⟩ := hn'
  exact congrArg UInt16.toFin (congrArg Subtype.val (Option.some.inj (hk.trans hk'.symm)))

theorem length_allIds_le : allIds.length ≤ UInt16.size := by
  refine (length_filterMap_le _ _).trans ?_
  rw [length_finRange]

theorem length_ids_le {ids : List PacketId} (h : ids.Nodup) : ids.length ≤ UInt16.size :=
  (h.subperm fun k _ => mem_allIds k).length_le.trans length_allIds_le

end AllIds

namespace OutInflight

/-! ## The search -/

section Search

variable (self : OutInflight)

def ahead (k : PacketId) : ℕ := Lib.ahead self.next.toBitVec k.1.toBitVec

theorem ahead_le (k : PacketId) : self.ahead k ≤ 65535 := Nat.le_of_lt_succ (ahead_lt _ _)

variable {self} {k k' : PacketId}

theorem ahead_injective (h : self.ahead k = self.ahead k') : k = k' :=
  Subtype.ext (UInt16.toBitVec_inj.1 (ahead_inj.1 h))

theorem ahead_eq_zero : self.ahead k = 0 ↔ k.1 = self.next :=
  ahead_eq_zero_iff.trans UInt16.toBitVec_inj

theorem ahead_eq_last : self.ahead k = 65535 ↔ k.1 + 1 = self.next :=
  ahead_eq_iff_add_one.trans UInt16.toBitVec_inj

theorem ahead_step (h : k.1 ≠ self.next) :
    { self with next := self.next + 1 }.ahead k + 1 = self.ahead k :=
  ahead_succ (mt UInt16.toBitVec_inj.1 h)

/-- The result of a search among `n` values from the counter on: the free id that is the nearest one, if
its distance is less than `n`. -/
def Searched (self : OutInflight) (n : ℕ) (r : Option PacketId × OutInflight) : Prop :=
  ((∀ k ∉ self.queues.keys, n ≤ self.ahead k) ∧
    r = (none, { self with next := self.next + UInt16.ofNat n })) ∨
  ∃ k ∉ self.queues.keys, self.ahead k < n ∧ (∀ k' ∉ self.queues.keys, self.ahead k ≤ self.ahead k') ∧
    r = (some k, { self with next := k.1 + 1 })

theorem Searched.succ {n : ℕ} {r : Option PacketId × OutInflight}
    (hused : ∀ k : PacketId, k.1 = self.next → k ∈ self.queues.keys)
    (h : Searched { self with next := self.next + 1 } n r) : Searched self (n + 1) r := by
  have hstep {k : PacketId} (hk : k ∉ self.queues.keys) :
      { self with next := self.next + 1 }.ahead k + 1 = self.ahead k :=
    ahead_step fun heq => hk (hused k heq)
  rcases h with ⟨hfar, rfl⟩ | ⟨k, hk, hlt, hnear, rfl⟩
  · refine .inl ⟨fun k hk => ?_, ?_⟩
    · have := hstep hk
      have := hfar k hk
      omega
    · simp [add_assoc, add_comm]
  · have hk' := hstep hk
    refine .inr ⟨k, hk, ?_, fun k₂ hk₂ => ?_, rfl⟩
    · omega
    · have := hstep hk₂
      have := hnear k₂ hk₂
      omega

variable (self)

theorem searched_nextIdLoop (n : ℕ) : Searched self n (self.nextIdLoop n) := by
  induction n generalizing self with
  | zero => exact .inl ⟨fun _ _ => Nat.zero_le _, by simp [nextIdLoop]⟩
  | succ n ih =>
    rw [nextIdLoop]
    split_ifs with hzero hused
    · refine (ih _).succ fun k hk => ?_
      exact absurd (hk.trans hzero) k.2
    · refine (ih _).succ fun k hk => ?_
      rwa [show k = ⟨self.next, hzero⟩ from Subtype.ext hk]
    · have hhere : self.ahead ⟨self.next, hzero⟩ = 0 := ahead_eq_zero.2 rfl
      refine .inr ⟨_, hused, ?_, fun k' _ => ?_, rfl⟩ <;> omega

theorem nextId_cases :
    ((∀ k ∉ self.queues.keys, k.1 + 1 = self.next) ∧
      self.nextId = (none, { self with next := self.next + 65535 })) ∨
    ∃ k ∉ self.queues.keys, k.1 + 1 ≠ self.next ∧
      (∀ k' ∉ self.queues.keys, self.ahead k ≤ self.ahead k') ∧
      self.nextId = (some k, { self with next := k.1 + 1 }) := by
  rcases self.searched_nextIdLoop 65535 with ⟨hfar, heq⟩ | ⟨k, hk, hlt, hnear, heq⟩
  · exact .inl ⟨fun k hk => ahead_eq_last.1 ((self.ahead_le k).antisymm (hfar k hk)), heq⟩
  · exact .inr ⟨k, hk, fun hlast => hlt.ne (ahead_eq_last.2 hlast), hnear, heq⟩

/-- A free id is not returned if there is a nearer one, or if it is not looked at. -/
theorem nextId_ne_iff {k : PacketId} (hk : k ∉ self.queues.keys) :
    self.nextId.1 ≠ some k ↔
      k.1 + 1 = self.next ∨ ∃ k' ∉ self.queues.keys, self.ahead k' < self.ahead k := by
  rcases self.nextId_cases with ⟨hlast, heq⟩ | ⟨k₁, hk₁, hbehind, hnear, heq⟩
  · rw [heq]
    exact iff_of_true nofun (.inl (hlast k hk))
  · rw [heq]
    constructor
    · intro hne
      have hahead : self.ahead k₁ ≠ self.ahead k := fun h => hne (congrArg some (ahead_injective h))
      exact .inr ⟨k₁, hk₁, lt_of_le_of_ne (hnear k hk) hahead⟩
    · rintro hor heq'
      obtain rfl := Option.some.inj heq'
      rcases hor with hlast | ⟨k', hk', hlt⟩
      · exact hbehind hlast
      · exact absurd (hnear k' hk') (Nat.not_le_of_lt hlt)

end Search

/-! ## Successive calls -/

/-- The ids that `n` calls of `next_id` return if nothing is registered in between, and what they make
of the window. -/
def nextIds (self : OutInflight) : ℕ → List PacketId × OutInflight
  | 0 => ([], self)
  | n + 1 =>
    let (ids, self) := nextIds self n
    (ids ++ self.nextId.1.toList, self.nextId.2)

/-- For every free id `next_id` finds an id, and one that is free, and as long as a free id has not been
returned, successive calls return different ones. -/
structure AllocatesAll (w : OutInflight) : Prop where
  found : (∃ k, k ∉ w.queues.keys) → ∃ k, w.nextId.1 = some k ∧ k ∉ w.queues.keys
  exhausted : w.nextId.1 = none → ∀ k, k ∈ w.queues.keys
  distinct : ∀ n, (∃ k ∉ w.queues.keys, k ∉ (w.nextIds n).1) → (w.nextIds (n + 1)).1.Nodup

section Calls

variable {self : OutInflight} {k : PacketId} {n : ℕ}

/-- The ids stand in the order in which the counter meets them. -/
def InOrder (self : OutInflight) (ids : List PacketId) : Prop :=
  ids.Pairwise fun k k' => self.ahead k < self.ahead k'

theorem InOrder.nodup {ids : List PacketId} (h : self.InOrder ids) : ids.Nodup :=
  h.imp fun hlt heq => hlt.ne (congrArg self.ahead heq)

/-- As long as a free id has not been returned, the counter has not gone past it: what was returned lies
before the counter, in order. -/
structure Underway (start : OutInflight) (k : PacketId) (r : List PacketId × OutInflight) : Prop where
  queues : r.2.queues = start.queues
  inOrder : start.InOrder r.1
  before : ∀ k' ∈ r.1, start.ahead k' < Lib.ahead start.next.toBitVec r.2.next.toBitVec
  ahead : Lib.ahead start.next.toBitVec r.2.next.toBitVec ≤ start.ahead k

theorem Underway.refl (self : OutInflight) (k : PacketId) : Underway self k ([], self) where
  queues := rfl
  inOrder := List.Pairwise.nil
  before := nofun
  ahead := by
    rw [ahead_self]
    exact Nat.zero_le _

variable {r : List PacketId × OutInflight}

/-- The id that is returned next lies ahead of those before, and the one that is missing is not nearer. -/
theorem Underway.extend (h : Underway self k r) {k' : PacketId} (hle : r.2.ahead k' ≤ r.2.ahead k) :
    self.InOrder (r.1 ++ [k']) ∧ self.ahead k' ≤ self.ahead k := by
  have hadd : Lib.ahead self.next.toBitVec r.2.next.toBitVec + r.2.ahead k = self.ahead k :=
    ahead_add_ahead h.ahead
  have hk := self.ahead_le k
  have hadd' : self.ahead k' = Lib.ahead self.next.toBitVec r.2.next.toBitVec + r.2.ahead k' :=
    ahead_eq_add (by change _ + r.2.ahead k' < 65536; omega)
  refine ⟨pairwise_append.2 ⟨h.inOrder, pairwise_singleton _ _, ?_⟩, by omega⟩
  intro k₁ hk₁ k₂ hk₂
  have := h.before k₁ hk₁
  rw [mem_singleton.1 hk₂]
  omega

/-- For a counter that is a variable: a sum with 65535 is nothing that `rfl` should look into. -/
theorem queues_withNext (w : OutInflight) (next : UInt16) : { w with next }.queues = w.queues := rfl

theorem Underway.next (h : Underway self k r) (hk : k ∉ self.queues.keys) :
    self.InOrder (r.1 ++ r.2.nextId.1.toList) ∧
      (k ∉ r.1 ++ r.2.nextId.1.toList →
        Underway self k (r.1 ++ r.2.nextId.1.toList, r.2.nextId.2)) := by
  have hk' : k ∉ r.2.queues.keys := by rwa [h.queues]
  rcases r.2.nextId_cases with ⟨hlast, heq⟩ | ⟨k₁, hk₁, -, hnear, heq⟩
  · -- The call fails: the counter has not moved before it.
    have hr := ahead_eq_last.2 (hlast k hk')
    have hadd : Lib.ahead self.next.toBitVec r.2.next.toBitVec + r.2.ahead k = self.ahead k :=
      ahead_add_ahead h.ahead
    have hle := self.ahead_le k
    rw [heq, Option.toList_none, append_nil]
    have hqueues := (queues_withNext r.2 (r.2.next + 65535)).trans h.queues
    refine ⟨h.inOrder, fun _ => ⟨hqueues, h.inOrder, fun k' hk' => ?_, ?_⟩⟩
    · have := h.before k' hk'
      omega
    · have : Lib.ahead self.next.toBitVec (r.2.next + 65535).toBitVec < 65536 := ahead_lt _ _
      change Lib.ahead self.next.toBitVec (r.2.next + 65535).toBitVec ≤ self.ahead k
      omega
  · obtain ⟨hinOrder, hle⟩ := h.extend (hnear k hk')
    rw [heq, Option.toList_some]
    refine ⟨hinOrder, fun hmissing => ?_⟩
    have hne : self.ahead k₁ ≠ self.ahead k := fun heq =>
      hmissing (ahead_injective heq ▸ mem_append_right _ (mem_singleton.2 rfl))
    have hk₂ := self.ahead_le k
    have hadd : Lib.ahead self.next.toBitVec (k₁.1 + 1).toBitVec = self.ahead k₁ + 1 :=
      ahead_add_one (by change self.ahead k₁ < 65535; omega)
    refine ⟨h.queues, hinOrder, fun k' hk' => ?_, ?_⟩
    · change self.ahead k' < Lib.ahead self.next.toBitVec (k₁.1 + 1).toBitVec
      rcases mem_append.1 hk' with hk' | hk'
      · have := (pairwise_append.1 hinOrder).2.2 k' hk' k₁ (mem_singleton.2 rfl)
        omega
      · rw [mem_singleton.1 hk']
        omega
    · change Lib.ahead self.next.toBitVec (k₁.1 + 1).toBitVec ≤ self.ahead k
      omega

theorem underway_nextIds (hk : k ∉ self.queues.keys) (hmissing : k ∉ (self.nextIds n).1) :
    Underway self k (self.nextIds n) := by
  induction n with
  | zero => exact .refl self k
  | succ n ih =>
    have hbefore : k ∉ (self.nextIds n).1 := fun h => hmissing (mem_append_left _ h)
    exact ((ih hbefore).next hk).2 hmissing

theorem nodup_nextIds (h : ∃ k ∉ self.queues.keys, k ∉ (self.nextIds n).1) :
    (self.nextIds (n + 1)).1.Nodup := by
  obtain ⟨k, hk, hmissing⟩ := h
  exact ((underway_nextIds hk hmissing).next hk).1.nodup

/-- Only a free id right behind the counter can be missed, and only if there is no other. -/
theorem allocatesAll_iff (self : OutInflight) :
    AllocatesAll self ↔
      ¬ ∃ k ∉ self.queues.keys, k.1 + 1 = self.next ∧ ∀ k' ∉ self.queues.keys, k' = k := by
  rcases self.nextId_cases with ⟨hlast, heq⟩ | ⟨k₁, hk₁, hbehind, -, heq⟩
  · have hnone : self.nextId.1 = none := by rw [heq]
    constructor
    · rintro h ⟨k, hk, -⟩
      exact hk (h.exhausted hnone k)
    · intro h
      have hall : ∀ k, k ∈ self.queues.keys := by
        intro k
        by_contra hk
        refine h ⟨k, hk, hlast k hk, fun k' hk' => ?_⟩
        have hk₁ : self.ahead k = 65535 := ahead_eq_last.2 (hlast k hk)
        have hk₂ : self.ahead k' = 65535 := ahead_eq_last.2 (hlast k' hk')
        exact ahead_injective (hk₂.trans hk₁.symm)
      exact ⟨fun ⟨k, hk⟩ => absurd (hall k) hk, fun _ => hall, fun n => nodup_nextIds⟩
  · have hsome : self.nextId.1 = some k₁ := by rw [heq]
    refine iff_of_true ⟨fun _ => ⟨k₁, hsome, hk₁⟩, ?_, fun n => nodup_nextIds⟩ ?_
    · intro hnone
      exact nomatch hnone.symm.trans hsome
    · rintro ⟨k, -, hk, honly⟩
      exact hbehind (honly k₁ hk₁ ▸ hk)

end Calls

def crowded : OutInflight where
  cap := 65535
  interval := 0
  next := 2
  queues :=
    ⟨(allIds.filter (·.1 ≠ 1)).map fun k =>
      (k, ⟨⟨0, ⟨false, false, .atLeastOnce, "t", some k, [], none⟩⟩, .unAck, 0⟩), by
    rw [List.map_map]
    exact (nodup_allIds.filter _).map fun _ _ h => h⟩

theorem mem_keys_crowded {k : PacketId} : k ∈ crowded.queues.keys ↔ k.1 ≠ 1 := by
  simp [crowded, DequeMap.keys, mem_allIds]

theorem free_id_missed : V5.packetIdOne ∉ crowded.queues.keys ∧ crowded.nextId.1 = none := by
  refine ⟨fun h => mem_keys_crowded.1 h rfl, ?_⟩
  rcases crowded.nextId_cases with ⟨-, heq⟩ | ⟨k, hk, hbehind, -⟩
  · rw [heq]
  · have hone : k.1 = 1 := not_not.1 (mt mem_keys_crowded.2 hk)
    refine absurd ?_ hbehind
    rw [hone]
    rfl

end OutInflight

end FerroMq
