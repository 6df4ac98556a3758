import FerroMq.Retain.Contents
import FerroMq.Router.Types

/-!
# Storage of retained messages in memory

`DefaultRetainStorage` keeps the messages in a retained tree and their number in a counter, which is exact in
every run (`retaineds_exact`).  `RamRetainer` puts limits in front of it: a full store refuses every call, also
those that would replace or delete a message (`RamRetainer.obeys_iff`).
-/

namespace FerroMq

open Lib

/-! ## Messages -/

inductive FromType
  | custom
  | admin
  | system
  | lastWill
  | bridge
  deriving DecidableEq, Repr

structure From where
  typ : FromType
  id : Id
  deriving DecidableEq, Repr

/-- `Publish` of the broker: a packet and what the broker adds to it. -/
structure Broker.Publish where
  inner : Codec.Publish
  targetClientid : Option ClientId
  delayInterval : Option UInt32
  createTime : Option TimestampMillis
  deriving DecidableEq

abbrev MsgId := ℕ

structure Retain where
  msgId : Option MsgId
  «from» : From
  publish : Broker.Publish
  deriving DecidableEq

/-- A message of QoS 0 with nothing but a topic, a payload and a time of creation. -/
def Retain.plain (topic : String) (payload : Bytes) (createTime : Option TimestampMillis) :
    Retain where
  msgId := none
  «from» := ⟨.custom, .ofClient 1 "c" 0⟩
  publish :=
    { inner := { dup := false, retain := true, qos := .atMostOnce, topic, packetId := none, payload,
                 properties := none }
      targetClientid := none, delayInterval := none, createTime }

/-- Nanoseconds of a clock that does not run backwards. -/
abbrev Instant := ℕ

/-- A `Duration` in nanoseconds. -/
abbrev Nanos := ℕ

/-- A value and the time from which on it is expired. -/
structure TimedValue (V : Type) where
  value : V
  deadline : Option Instant
  deriving DecidableEq

namespace TimedValue

variable {V : Type}

def new (value : V) (timeoutDuration : Option Nanos) (now : Instant) : TimedValue V :=
  ⟨value, timeoutDuration.map (now + ·)⟩

def isExpired (self : TimedValue V) (now : Instant) : Bool :=
  (self.deadline.map fun e => decide (now ≥ e)).getD false

def remaining (self : TimedValue V) (now : Instant) : Option Nanos :=
  self.deadline.bind fun d => if d > now then some (d - now) else none

end TimedValue

/-! ## `DefaultRetainStorage` -/

structure DefaultRetainStorage where
  messages : RetainTree (TimedValue Retain)
  retaineds : Counter

namespace DefaultRetainStorage

def new : DefaultRetainStorage := ⟨Trie.empty, {}⟩

def usizeMax : ℕ := 2 ^ 64 - 1

def dropExpired (now : Instant) : RetainTree.Keep (TimedValue Retain) Counter := fun retaineds tv =>
  if tv.isExpired now then (false, tv, retaineds.dec) else (true, tv, retaineds)

def removeExpiredMessages (self : DefaultRetainStorage) (now : Instant) : DefaultRetainStorage × ℕ :=
  let (messages, retaineds, removeds) := self.messages.retain usizeMax (dropExpired now) self.retaineds
  (⟨messages, retaineds⟩, removeds)

def setWithTimeout (self : DefaultRetainStorage) (now : Instant) (topic : String) (retain : Retain)
    (timeout : Option Nanos) : Except TopicError DefaultRetainStorage := do
  let topic ← Topic.fromStr topic
  let (messages, old) := self.messages.remove topic
  if !retain.publish.inner.payload.isEmpty then
    return ⟨messages.insert topic (.new retain timeout now),
      if old.isNone then self.retaineds.inc else self.retaineds⟩
  else return ⟨messages, if old.isSome then self.retaineds.dec else self.retaineds⟩

def getMessage (self : DefaultRetainStorage) (now : Instant) (topicFilter : TopicFilter) :
    Except TopicError (List (String × Retain)) := do
  let topic ← Topic.fromStr topicFilter
  return (self.messages.matches topic).filterMap fun (t, r) =>
    if r.isExpired now then none else some (t.toStr, r.value)

def count (self : DefaultRetainStorage) : ℤ := self.retaineds.count

def lookup (self : DefaultRetainStorage) (topic : String) : Option (TimedValue Retain) :=
  match Topic.fromStr topic with
  | .ok topic => self.messages.get topic.levels
  | .error _ => none

/-- The storages that the calls build, with the branches of every node in any order. -/
inductive Reachable : DefaultRetainStorage → Prop
  | new : Reachable new
  | set {s s'} (now : Instant) (topic : String) (retain : Retain) (timeout : Option Nanos) :
      Reachable s → s.setWithTimeout now topic retain timeout = .ok s' → Reachable s'
  | removeExpired {s} (now : Instant) : Reachable s → Reachable (s.removeExpiredMessages now).1
  | reorder {s} {messages : RetainTree (TimedValue Retain)} : Reachable s →
      RetainTree.Reorder s.messages messages → Reachable { s with messages }

/-- `dropExpired` with a clock that is read for every value anew; the second number counts the readings. -/
def dropExpiredBy (clock : ℕ → Instant) : RetainTree.Keep (TimedValue Retain) (Counter × ℕ) :=
  fun (retaineds, reads) tv =>
    let (keep, tv, retaineds) := dropExpired (clock reads) retaineds tv
    (keep, tv, retaineds, reads + 1)

def removeExpiredBy (self : DefaultRetainStorage) (clock : ℕ → Instant) : DefaultRetainStorage :=
  let (messages, (retaineds, _), _) := self.messages.retain usizeMax (dropExpiredBy clock) (self.retaineds, 0)
  ⟨messages, retaineds⟩

/-- The storages of all sequences of calls, with any readings of the clock.  A call that returns an error has changed
nothing. -/
inductive Served : DefaultRetainStorage → Prop
  | new : Served new
  | set {s s'} (now : Instant) (topic : String) (retain : Retain) (timeout : Option Nanos) :
      Served s → s.setWithTimeout now topic retain timeout = .ok s' → Served s'
  | removeExpired {s} (clock : ℕ → Instant) : Served s → Served (s.removeExpiredBy clock)
  | reorder {s} {messages : RetainTree (TimedValue Retain)} : Served s →
      RetainTree.Reorder s.messages messages → Served { s with messages }

/-- The tree is in order and the counter says how many messages it holds. -/
structure Consistent (s : DefaultRetainStorage) : Prop where
  stocked : s.messages.Stocked
  count : s.count = s.messages.valuesSize

variable {topic : String} {t : Topic} {s : DefaultRetainStorage} {now : Instant} {retain : Retain}
  {timeout : Option Nanos}

theorem setWithTimeout_eq (s : DefaultRetainStorage) (now : Instant)
    (h : Topic.fromStr topic = .ok t) (retain : Retain) (timeout : Option Nanos) :
    s.setWithTimeout now topic retain timeout = if retain.publish.inner.payload = [] then
        .ok ⟨(s.messages.remove t).1, if (s.messages.get t.levels).isSome then s.retaineds.dec else s.retaineds⟩
      else .ok ⟨(s.messages.remove t).1.insert t (.new retain timeout now),
        if (s.messages.get t.levels).isNone then s.retaineds.inc else s.retaineds⟩ := by
  rw [setWithTimeout, h, ← RetainTree.remove_snd]
  cases retain.publish.inner.payload <;> rfl

theorem setWithTimeout_ok {s' : DefaultRetainStorage}
    (h : s.setWithTimeout now topic retain timeout = .ok s') : ∃ t, Topic.fromStr topic = .ok t := by
  rw [setWithTimeout] at h
  rcases ht : Topic.fromStr topic with e | t
  · rw [ht] at h
    exact nomatch h
  · exact ⟨t, rfl⟩

theorem Consistent.set {s' : DefaultRetainStorage} (h : Consistent s)
    (hset : s.setWithTimeout now topic retain timeout = .ok s') : Consistent s' := by
  obtain ⟨t, ht⟩ := setWithTimeout_ok hset
  have hremove := h.stocked.remove t
  have hsize := h.stocked.valuesSize_remove t
  have hcount := h.count
  rw [setWithTimeout_eq s now ht] at hset
  unfold DefaultRetainStorage.count at hcount
  by_cases hpayload : retain.publish.inner.payload = []
  · rw [if_pos hpayload] at hset
    cases hset
    refine ⟨hremove, ?_⟩
    cases hold : s.messages.get t.levels with
    | none | some old =>
      rw [hold] at hsize
      dsimp [DefaultRetainStorage.count] at hsize ⊢
      omega
  · rw [if_neg hpayload] at hset
    cases hset
    refine ⟨hremove.insert ⟨topic, ht⟩ _, ?_⟩
    have hgone : (s.messages.remove t).1.get t.levels = none := by
      rw [RetainTree.get_remove, if_pos rfl]
    have hinsert := hremove.valuesSize_insert t (.new retain timeout now)
    rw [hgone] at hinsert
    cases hold : s.messages.get t.levels with
    | none | some old =>
      rw [hold] at hsize
      dsimp [DefaultRetainStorage.count] at hsize hinsert ⊢
      omega

theorem dropExpired_counts (now : Instant) (n : ℤ) :
    RetainTree.Keep.Counts (dropExpired now) fun retaineds removeds =>
      retaineds.count + removeds = n := by
  intro c tv r hc
  rw [dropExpired]
  cases tv.isExpired now with
  | true =>
    change c.count - 1 + ((r + 1 : ℕ) : ℤ) = n
    omega
  | false => exact hc

theorem Consistent.keep {σ : Type} {f : RetainTree.Keep (TimedValue Retain) σ} {c : σ → Counter} {x : σ}
    (h : Consistent s) (hx : c x = s.retaineds)
    (hf : RetainTree.Keep.Counts f fun x removeds => (c x).count + removeds = s.count) :
    Consistent ⟨(s.messages.retain usizeMax f x).1, c (s.messages.retain usizeMax f x).2.1⟩ := by
  have hthins := RetainTree.thins_retain hf s.messages usizeMax x
  have hsize := hthins.size
  have hinv := hthins.inv (by rw [hx]; exact add_zero _)
  have hcount := h.count
  refine ⟨h.stocked.retain usizeMax f x, ?_⟩
  change (c (s.messages.retain usizeMax f x).2.1).count = ((s.messages.retain usizeMax f x).1.valuesSize : ℤ)
  omega

theorem Consistent.removeExpired (h : Consistent s) (now : Instant) :
    Consistent (s.removeExpiredMessages now).1 :=
  h.keep (c := id) rfl (dropExpired_counts now s.count)

theorem Consistent.new : Consistent new := ⟨.empty, rfl⟩

theorem Consistent.reorder {messages : RetainTree (TimedValue Retain)} (h : Consistent s)
    (hr : RetainTree.Reorder s.messages messages) : Consistent { s with messages } := by
  refine ⟨h.stocked.reorder hr, h.count.trans (congrArg Nat.cast ?_)⟩
  exact h.stocked.valuesSize_congr (h.stocked.reorder hr) fun ks => by rw [hr.get h.stocked.wf]

theorem Reachable.consistent (h : Reachable s) : Consistent s := by
  induction h with
  | new => exact .new
  | set now topic retain timeout _ hset ih => exact ih.set hset
  | removeExpired now _ ih => exact ih.removeExpired now
  | reorder _ hr ih => exact ih.reorder hr

theorem get_setWithTimeout {s' : DefaultRetainStorage} (ht : Topic.fromStr topic = .ok t)
    (h : s.setWithTimeout now topic retain timeout = .ok s') (ks : List Level) :
    s'.messages.get ks = if ks = t.levels then
      if retain.publish.inner.payload = [] then none else some (.new retain timeout now)
      else s.messages.get ks := by
  rw [setWithTimeout_eq s now ht] at h
  by_cases hpayload : retain.publish.inner.payload = []
  · rw [if_pos hpayload] at h ⊢
    cases h
    exact RetainTree.get_remove _ _ _
  · rw [if_neg hpayload] at h ⊢
    cases h
    refine (RetainTree.get_insert _ _ _ _).trans ?_
    split_ifs with hks
    · rfl
    · exact (RetainTree.get_remove _ _ _).trans (if_neg hks)

theorem Reachable.payload_ne_nil (h : Reachable s) :
    ∀ ks tv, s.messages.get ks = some tv → tv.value.publish.inner.payload ≠ [] := by
  induction h with
  | new => exact fun ks tv htv => nomatch (Trie.get_empty ks).symm.trans htv
  | set now topic retain timeout _ hset ih =>
    intro ks tv htv
    obtain ⟨t, ht⟩ := setWithTimeout_ok hset
    rw [get_setWithTimeout ht hset] at htv
    split_ifs at htv with hks hpayload
    · exact Option.some.inj htv ▸ hpayload
    · exact ih ks tv htv
  | @removeExpired s now h ih =>
    refine h.consistent.stocked.forall_retain (fun c tv htv => ?_) ih usizeMax s.retaineds
    rw [dropExpired]
    split_ifs <;> exact htv
  | reorder h hr ih =>
    intro ks tv htv
    rw [hr.get h.consistent.stocked.wf] at htv
    exact ih ks tv htv

theorem lookup_setWithTimeout (s : DefaultRetainStorage) (now : Instant)
    (h : Topic.fromStr topic = .ok t) (retain : Retain) (timeout : Option Nanos) :
    ∃ s', s.setWithTimeout now topic retain timeout = .ok s' ∧ s'.lookup topic =
      if retain.publish.inner.payload = [] then none else some (.new retain timeout now) := by
  obtain ⟨s', hset⟩ : ∃ s', s.setWithTimeout now topic retain timeout = .ok s' := by
    rw [setWithTimeout_eq s now h]
    split_ifs <;> exact ⟨_, rfl⟩
  refine ⟨s', hset, ?_⟩
  rw [lookup, h]
  exact (get_setWithTimeout h hset t.levels).trans (if_pos rfl)

theorem Consistent.removeExpiredBy (h : Consistent s) (clock : ℕ → Instant) :
    Consistent (s.removeExpiredBy clock) :=
  h.keep (c := Prod.fst) (x := (s.retaineds, 0)) rfl fun (c, reads) tv r hc =>
    dropExpired_counts (clock reads) s.count c tv r hc

/-- The counter is the number of stored values. -/
theorem retaineds_exact (h : Served s) : s.count = s.messages.valuesSize ∧ 0 ≤ s.count := by
  have hconsistent : Consistent s := by
    induction h with
    | new => exact .new
    | set now topic retain timeout _ hset ih => exact ih.set hset
    | removeExpired clock _ ih => exact ih.removeExpiredBy clock
    | reorder _ hr ih => exact ih.reorder hr
  exact ⟨hconsistent.count, hconsistent.count ▸ Nat.cast_nonneg _⟩

/-- One message that expires while the storage is cleaned up. -/
theorem retaineds_exact_one : ∃ s, new.setWithTimeout 0 "a" (.plain "a" [120] none) (some 5) = .ok s ∧
    (s.removeExpiredBy fun reads => 5 + reads).count =
      (s.removeExpiredBy fun reads => 5 + reads).messages.valuesSize := by
  have htopic : Topic.fromStr "a" = .ok ⟨[.normal "a"]⟩ := by decide +kernel
  obtain ⟨s, hset, -⟩ := new.lookup_setWithTimeout 0 htopic (.plain "a" [120] none) (some 5)
  exact ⟨s, hset, (retaineds_exact (.removeExpired _ (.set 0 "a" _ _ .new hset))).1⟩

end DefaultRetainStorage

/-! ## `RamRetainer` -/

/-- The limits of the retainer plugin. -/
structure PluginConfig where
  /-- 0 and negative numbers mean no limit. -/
  maxRetainedMessages : ℤ
  maxPayloadSize : ℕ
  /-- Replaces the interval of every message; 0 means no expiry. -/
  retainedMessageTtl : Option Nanos

namespace RamRetainer

variable (cfg : PluginConfig)

def expiryInterval (expiryInterval : Option Nanos) : Option Nanos :=
  (cfg.retainedMessageTtl.map fun ttl => if ttl = 0 then none else some ttl).getD expiryInterval

def set (inner : DefaultRetainStorage) (now : Instant) (topic : String) (retain : Retain)
    (expiryInterval : Option Nanos) : Except TopicError DefaultRetainStorage :=
  if retain.publish.inner.payload.length > cfg.maxPayloadSize then .ok inner
  else if cfg.maxRetainedMessages > 0 ∧ inner.count ≥ cfg.maxRetainedMessages then .ok inner
  else inner.setWithTimeout now topic retain (RamRetainer.expiryInterval cfg expiryInterval)

def afterSet (inner : DefaultRetainStorage) (now : Instant) (topic : String) (retain : Retain)
    (expiryInterval : Option Nanos) : DefaultRetainStorage :=
  (set cfg inner now topic retain expiryInterval).toOption.getD inner

/-- The storages of all runs. -/
inductive Reachable : DefaultRetainStorage → Prop
  | new : Reachable .new
  | set {s} (now : Instant) (topic : String) (retain : Retain) (expiryInterval : Option Nanos) :
      Reachable s → Reachable (afterSet cfg s now topic retain expiryInterval)
  | removeExpired {s} (now : Instant) : Reachable s → Reachable (s.removeExpiredMessages now).1
  | reorder {s} {messages : RetainTree (TimedValue Retain)} : Reachable s →
      RetainTree.Reorder s.messages messages → Reachable { s with messages }

variable {cfg}

theorem afterSet_cases (s : DefaultRetainStorage) (now : Instant) (topic : String) (retain : Retain)
    (expiryInterval : Option Nanos) :
    afterSet cfg s now topic retain expiryInterval = s ∨
      ¬ (cfg.maxRetainedMessages > 0 ∧ s.count ≥ cfg.maxRetainedMessages) ∧
        s.setWithTimeout now topic retain (RamRetainer.expiryInterval cfg expiryInterval) =
          .ok (afterSet cfg s now topic retain expiryInterval) := by
  rw [afterSet, set]
  split_ifs with hsize hfull
  · exact .inl rfl
  · exact .inl rfl
  · rcases hset : s.setWithTimeout now topic retain (RamRetainer.expiryInterval cfg expiryInterval)
      with e | s'
    · exact .inl rfl
    · exact .inr ⟨hfull, rfl⟩

variable {s : DefaultRetainStorage}

theorem Reachable.inner (h : Reachable cfg s) : s.Reachable := by
  induction h with
  | new => exact .new
  | set now topic retain expiryInterval _ ih =>
    rcases afterSet_cases _ now topic retain expiryInterval with heq | ⟨-, hset⟩
    · rw [heq]
      exact ih
    · exact .set now topic retain _ ih hset
  | removeExpired now _ ih => exact .removeExpired now ih
  | reorder _ hr ih => exact .reorder ih hr

theorem count_setWithTimeout_le {s' : DefaultRetainStorage} {now : Instant} {topic : String}
    {retain : Retain} {timeout : Option Nanos}
    (h : s.setWithTimeout now topic retain timeout = .ok s') : s'.count ≤ s.count + 1 := by
  obtain ⟨t, ht⟩ := DefaultRetainStorage.setWithTimeout_ok h
  rw [DefaultRetainStorage.setWithTimeout_eq s now ht] at h
  split_ifs at h <;> cases h
  all_goals
    dsimp [DefaultRetainStorage.count]
    omega

theorem count_removeExpired_le (s : DefaultRetainStorage) (now : Instant) :
    (s.removeExpiredMessages now).1.count ≤ s.count := by
  have hthins := RetainTree.thins_retain (DefaultRetainStorage.dropExpired_counts now s.count)
    s.messages DefaultRetainStorage.usizeMax s.retaineds
  have hinv := hthins.inv (add_zero _)
  exact le_of_le_of_eq (le_add_of_nonneg_right (Nat.cast_nonneg _)) hinv

theorem Reachable.count_le (h : Reachable cfg s)
    (hmax : 0 < cfg.maxRetainedMessages) : s.count ≤ cfg.maxRetainedMessages := by
  induction h with
  | new => exact hmax.le
  | @set s now topic retain expiryInterval _ ih =>
    rcases afterSet_cases s now topic retain expiryInterval with heq | ⟨hfull, hset⟩
    · rw [heq]
      exact ih
    · have hle := count_setWithTimeout_le hset
      have hlt : s.count < cfg.maxRetainedMessages := by
        by_contra hge
        exact hfull ⟨hmax, not_lt.1 hge⟩
      omega
  | removeExpired now _ ih => exact (count_removeExpired_le _ now).trans ih
  | reorder _ _ ih => exact ih

/-- What a call is to leave at its topic. -/
def wanted (cfg : PluginConfig) (now : Instant) (retain : Retain) (expiryInterval : Option Nanos) :
    Option (TimedValue Retain) :=
  if retain.publish.inner.payload = [] then none
  else some (.new retain (RamRetainer.expiryInterval cfg expiryInterval) now)

/-- A call with an empty payload leaves its topic without a message, and one with an accepted payload
replaces the message of its topic. -/
structure Obeys (cfg : PluginConfig) (s : DefaultRetainStorage) (now : Instant) (topic : String)
    (retain : Retain) (expiryInterval : Option Nanos) : Prop where
  deletes : retain.publish.inner.payload = [] →
    (afterSet cfg s now topic retain expiryInterval).lookup topic = none
  replaces : retain.publish.inner.payload ≠ [] →
    retain.publish.inner.payload.length ≤ cfg.maxPayloadSize → s.lookup topic ≠ none →
    (afterSet cfg s now topic retain expiryInterval).lookup topic =
      wanted cfg now retain expiryInterval

theorem lookup_ne_none {topic : String} (h : s.lookup topic ≠ none) : ∃ t, Topic.fromStr topic = .ok t := by
  unfold DefaultRetainStorage.lookup at h
  split at h
  · rename_i t ht
    exact ⟨t, ht⟩
  · exact absurd rfl h

section

variable {s : DefaultRetainStorage} {now : Instant} {topic : String} {retain : Retain}
  {expiryInterval : Option Nanos}

theorem afterSet_of_full (hfull : cfg.maxRetainedMessages > 0 ∧ s.count ≥ cfg.maxRetainedMessages) :
    afterSet cfg s now topic retain expiryInterval = s := by
  rw [afterSet, set, if_pos hfull, ite_self]
  rfl

theorem lookup_afterSet (hfull : ¬ (cfg.maxRetainedMessages > 0 ∧ s.count ≥ cfg.maxRetainedMessages))
    (hsize : retain.publish.inner.payload.length ≤ cfg.maxPayloadSize) {t : Topic}
    (ht : Topic.fromStr topic = .ok t) :
    (afterSet cfg s now topic retain expiryInterval).lookup topic =
      wanted cfg now retain expiryInterval := by
  obtain ⟨s', hset, hlookup⟩ := s.lookup_setWithTimeout now ht retain
    (RamRetainer.expiryInterval cfg expiryInterval)
  rw [afterSet, set, if_neg (not_lt.2 hsize), if_neg hfull, hset]
  exact hlookup

end

/-- In every run the number of stored topics is within the limit, and a call deletes or replaces the
message of its topic unless the store is full and the message would change. -/
theorem obeys_iff {s : DefaultRetainStorage} (h : Reachable cfg s) (now : Instant) (topic : String)
    (retain : Retain) (expiryInterval : Option Nanos) :
    (0 < cfg.maxRetainedMessages → (s.messages.valuesSize : ℤ) ≤ cfg.maxRetainedMessages) ∧
      (Obeys cfg s now topic retain expiryInterval ↔
        ¬ (0 < cfg.maxRetainedMessages ∧ s.messages.valuesSize = cfg.maxRetainedMessages ∧
          retain.publish.inner.payload.length ≤ cfg.maxPayloadSize ∧ s.lookup topic ≠ none ∧
          s.lookup topic ≠ wanted cfg now retain expiryInterval)) := by
  have hcount := h.inner.consistent.count
  refine ⟨fun hmax => hcount ▸ h.count_le hmax, fun hobeys => ?_, fun hroom => ⟨?_, ?_⟩⟩
  · rintro ⟨hmax, hfull, hsize, hstored, hchange⟩
    have hsame : afterSet cfg s now topic retain expiryInterval = s :=
      afterSet_of_full ⟨hmax, (hcount.trans hfull).ge⟩
    by_cases hpayload : retain.publish.inner.payload = []
    · exact hstored (hsame ▸ hobeys.deletes hpayload)
    · exact hchange (hsame ▸ hobeys.replaces hpayload hsize hstored)
  · intro hpayload
    have hsize : retain.publish.inner.payload.length ≤ cfg.maxPayloadSize := by simp [hpayload]
    have hwanted : wanted cfg now retain expiryInterval = none := if_pos hpayload
    by_cases hfull : cfg.maxRetainedMessages > 0 ∧ s.count ≥ cfg.maxRetainedMessages
    · rw [afterSet_of_full hfull]
      by_contra hstored
      have hle := h.count_le hfull.1
      exact hroom ⟨hfull.1, by omega, hsize, hstored, hwanted ▸ hstored⟩
    · by_contra hstored
      obtain ⟨t, ht⟩ := lookup_ne_none hstored
      exact hstored ((lookup_afterSet hfull hsize ht).trans hwanted)
  · intro hpayload hsize hstored
    by_cases hfull : cfg.maxRetainedMessages > 0 ∧ s.count ≥ cfg.maxRetainedMessages
    · rw [afterSet_of_full hfull]
      by_contra hchange
      have hle := h.count_le hfull.1
      exact hroom ⟨hfull.1, by omega, hsize, hstored, hchange⟩
    · obtain ⟨t, ht⟩ := lookup_ne_none hstored
      exact lookup_afterSet hfull hsize ht

def oneMessage : PluginConfig where
  maxRetainedMessages := 1
  maxPayloadSize := 1024
  retainedMessageTtl := none

def fullAtA : DefaultRetainStorage := afterSet oneMessage .new 0 "a" (.plain "a" [120] none) none

/-- With room for a second message the deletion goes through. -/
theorem obeys_iff_room : Obeys { oneMessage with maxRetainedMessages := 2 }
    (afterSet { oneMessage with maxRetainedMessages := 2 } .new 0 "a" (.plain "a" [120] none) none)
    1 "a" (.plain "a" [] none) none :=
  (obeys_iff (.set 0 "a" _ none .new) 1 "a" (.plain "a" [] none) none).2.2 (by decide +kernel)

/-- The full store neither deletes nor replaces its message. -/
theorem fullAtA_refuses : Reachable oneMessage fullAtA ∧
    ¬ Obeys oneMessage fullAtA 1 "a" (.plain "a" [] none) none ∧
    ¬ Obeys oneMessage fullAtA 1 "a" (.plain "a" [121] none) none := by
  refine ⟨.set 0 "a" _ none .new, fun h => ?_, fun h => ?_⟩
  · exact absurd (h.deletes rfl) (by decide +kernel)
  · exact absurd (h.replaces (by decide) (by decide) (by decide +kernel)) (by decide +kernel)

end RamRetainer

end FerroMq
