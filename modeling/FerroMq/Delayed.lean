import FerroMq.Lib.BinaryHeap
import FerroMq.Lib.History
import FerroMq.Retain.Storage

/-!
# Delayed messages

The sender of `delayed.rs` keeps the messages in a heap.  Its loop looks at the root under one lock and removes
the root under another, so that messages come in between.
-/

namespace FerroMq

open Lib List

structure DelayedPublish where
  expiredTime : TimestampMillis
  «from» : From
  publish : Broker.Publish
  messageStorageAvailable : Bool
  messageExpiryInterval : Option Nanos
  deriving DecidableEq

namespace DelayedPublish

def new (now : TimestampMillis) («from» : From) (publish : Broker.Publish) (messageStorageAvailable : Bool)
    (messageExpiryInterval : Option Nanos) : DelayedPublish where
  expiredTime := (publish.delayInterval.map fun di => now + di.toNat * 1000).getD now
  «from»
  publish
  messageStorageAvailable
  messageExpiryInterval

def isExpired (self : DelayedPublish) (now : TimestampMillis) : Bool := now > self.expiredTime

/-- What `Ord` compares: the message that is due first is the greatest. -/
def order (self : DelayedPublish) : TimestampMillisᵒᵈ := OrderDual.toDual self.expiredTime

def delay (self : DelayedPublish) : TimestampMillis := (self.publish.delayInterval.getD 0).toNat * 1000

end DelayedPublish

/-- A message with its number among those that are accepted and the time at that; the broker has neither. -/
structure Accepted extends DelayedPublish where
  number : ℕ
  acceptedAt : TimestampMillis
  deriving DecidableEq

/-- A message that the loop has taken out, at a time, and how many were accepted by then. -/
structure Release where
  msg : Accepted
  releasedAt : TimestampMillis
  acceptedBefore : ℕ
  deriving DecidableEq

/-- The sender, the answer of the loop's last look at the heap, and what has been accepted and released. -/
structure DefaultDelayedSender where
  msgs : BinaryHeap fun m : Accepted => m.order
  mqttDelayedPublishMax : ℕ
  isExpired : Bool
  accepted : List Accepted
  released : List Release

namespace DefaultDelayedSender

def new (mqttDelayedPublishMax : ℕ) : DefaultDelayedSender :=
  ⟨.empty, mqttDelayedPublishMax, false, [], []⟩

def delayPublish (self : DefaultDelayedSender) (now : TimestampMillis) («from» : From) (publish : Broker.Publish)
    (messageStorageAvailable : Bool) (messageExpiryInterval : Option Nanos) :
    Option (From × Broker.Publish) × DefaultDelayedSender :=
  if self.msgs.len < self.mqttDelayedPublishMax then
    let m := ⟨.new now «from» publish messageStorageAvailable messageExpiryInterval, self.accepted.length, now⟩
    (none, { self with msgs := self.msgs.push m, accepted := self.accepted ++ [m] })
  else (some («from», publish), self)

def peek (self : DefaultDelayedSender) (now : TimestampMillis) : DefaultDelayedSender :=
  { self with isExpired := self.msgs.peek.any fun m => m.isExpired now }

/-- The loop removes the root if it was due. -/
def pop (self : DefaultDelayedSender) (now : TimestampMillis) : DefaultDelayedSender :=
  if self.isExpired then
    match self.msgs.pop with
    | some (m, msgs) =>
      { self with msgs, isExpired := false, released := self.released ++ [⟨m, now, self.accepted.length⟩] }
    | none => { self with isExpired := false }
  else self

end DefaultDelayedSender

inductive DelayedAction
  | delayPublish («from» : From) (publish : Broker.Publish) (messageStorageAvailable : Bool)
      (messageExpiryInterval : Option Nanos)
  | peek
  | pop

structure DelayedEvent where
  now : TimestampMillis
  action : DelayedAction

namespace DefaultDelayedSender

def step (self : DefaultDelayedSender) (e : DelayedEvent) : DefaultDelayedSender :=
  match e.action with
  | .delayPublish «from» publish available expiry => (self.delayPublish e.now «from» publish available expiry).2
  | .peek => self.peek e.now
  | .pop => self.pop e.now

def run (mqttDelayedPublishMax : ℕ) (events : List DelayedEvent) : DefaultDelayedSender :=
  events.foldl step (new mqttDelayedPublishMax)

/-! ## Invariant -/

/-- A message that was present when another was released is not due before it. -/
def NotBefore (m : Accepted) (r : Release) : Prop :=
  m.number < r.acceptedBefore → r.msg.expiredTime ≤ m.expiredTime

structure Inv (s : DefaultDelayedSender) (now : TimestampMillis) : Prop where
  due : s.isExpired = true → ∃ m ∈ s.msgs.toList, m.expiredTime < now
  perm : (s.released.map Release.msg ++ s.msgs.toList).Perm s.accepted
  numbers : s.accepted.map Accepted.number = List.range s.accepted.length
  expiredTime : ∀ m ∈ s.accepted, m.expiredTime = m.acceptedAt + m.delay
  late : ∀ r ∈ s.released, r.msg.expiredTime < r.releasedAt
  before : ∀ r ∈ s.released, r.msg.number < r.acceptedBefore ∧ r.acceptedBefore ≤ s.accepted.length
  inOrder : s.released.Pairwise fun r r' => NotBefore r'.msg r
  rest : ∀ r ∈ s.released, ∀ m ∈ s.msgs.toList, NotBefore m r
  len : s.msgs.len ≤ s.mqttDelayedPublishMax

variable {self : DefaultDelayedSender} {t now : TimestampMillis}

theorem inv_new (max : ℕ) : (new max).Inv t :=
  ⟨fun h => (nomatch h), .nil, rfl, fun _ h => (nomatch h), fun _ h => (nomatch h), fun _ h => (nomatch h), .nil,
    fun _ h => (nomatch h), Nat.zero_le _⟩

theorem Inv.mono (h : self.Inv t) (ht : t ≤ now) : self.Inv now :=
  { h with due := fun hexp => (h.due hexp).imp fun _ hm => ⟨hm.1, hm.2.trans_le ht⟩ }

theorem Inv.delayPublish (h : self.Inv t) («from» : From) (publish : Broker.Publish) (available : Bool)
    (expiry : Option Nanos) : (self.delayPublish now «from» publish available expiry).2.Inv t := by
  rw [DefaultDelayedSender.delayPublish]
  split_ifs with hlen
  · dsimp only
    generalize hm : (⟨.new now «from» publish available expiry, self.accepted.length, now⟩ : Accepted) = m
    have hpush := @BinaryHeap.push_toList _ _ _ _ self.msgs m
    have hnumber : m.number = self.accepted.length := by rw [← hm]
    constructor
    case due => exact fun hexp => (h.due hexp).imp fun _ hm => ⟨hpush.mem_iff.2 (.tail _ hm.1), hm.2⟩
    case perm =>
      refine ((hpush.append_left _).trans perm_middle).trans ?_
      exact (h.perm.cons m).trans (perm_append_singleton _ _).symm
    case numbers => simp [range_succ, h.numbers, hnumber]
    case expiredTime =>
      intro m' hm'
      rcases mem_append.1 hm' with hm' | hm'
      · exact h.expiredTime m' hm'
      · rw [mem_singleton.1 hm', ← hm]
        simp only [DelayedPublish.new, DelayedPublish.delay]
        cases publish.delayInterval <;> simp
    case late => exact h.late
    case before => exact fun r hr => ⟨(h.before r hr).1, by simpa using (h.before r hr).2.trans (Nat.le_succ _)⟩
    case inOrder => exact h.inOrder
    case rest =>
      intro r hr m' hm'
      rcases mem_cons.1 (hpush.mem_iff.1 hm') with rfl | hm'
      · exact fun hlt => absurd (h.before r hr).2 (by omega)
      · exact h.rest r hr m' hm'
    case len => exact hlen
  · exact h

theorem mem_of_peek {m : Accepted} (h : self.msgs.peek = some m) : m ∈ self.msgs.toList := by
  obtain ⟨hlt, rfl⟩ := Vector.getElem?_eq_some_iff.1 h
  exact Vector.mem_toList_iff.2 (Vector.getElem_mem hlt)

theorem Inv.peek (h : self.Inv now) : (self.peek now).Inv now := by
  refine { h with due := fun hexp => ?_ }
  obtain ⟨m, hm, hexp⟩ := (Option.any_eq_true _ _).1 hexp
  exact ⟨m, mem_of_peek hm, of_decide_eq_true hexp⟩

theorem Inv.pop (h : self.Inv now) : (self.pop now).Inv now := by
  rw [DefaultDelayedSender.pop]
  split_ifs with hexp
  · cases hpop : self.msgs.pop with
    | none => exact { h with due := nofun }
    | some x =>
      obtain ⟨m, msgs⟩ := x
      dsimp only
      have hperm := BinaryHeap.pop_toList hpop
      have hpeek : self.msgs.peek = some m := by rw [← BinaryHeap.pop_peek, hpop]; rfl
      have hmin : ∀ m' ∈ self.msgs.toList, m.expiredTime ≤ m'.expiredTime := fun m' hm' =>
        BinaryHeap.le_peek hpeek hm'
      have hm : m ∈ self.accepted := h.perm.mem_iff.1 (mem_append_right _ (mem_of_peek hpeek))
      have hnumber : m.number < self.accepted.length :=
        mem_range.1 (h.numbers ▸ mem_map_of_mem hm)
      constructor
      case due => exact nofun
      case perm =>
        rw [map_append, append_assoc]
        exact (hperm.symm.append_left _).trans h.perm
      case numbers => exact h.numbers
      case expiredTime => exact h.expiredTime
      case late =>
        obtain ⟨m', hm', hlt⟩ := h.due hexp
        exact forall_mem_append.2 ⟨h.late, forall_mem_singleton.2 ((hmin m' hm').trans_lt hlt)⟩
      case before =>
        exact forall_mem_append.2 ⟨h.before, forall_mem_singleton.2 ⟨hnumber, le_rfl⟩⟩
      case inOrder =>
        refine pairwise_append.2 ⟨h.inOrder, pairwise_singleton _ _, fun r hr => ?_⟩
        exact forall_mem_singleton.2 (h.rest r hr m (mem_of_peek hpeek))
      case rest =>
        refine forall_mem_append.2 ⟨fun r hr m' hm' => ?_, forall_mem_singleton.2 fun m' hm' _ => ?_⟩
        · exact h.rest r hr m' (hperm.mem_iff.2 (.tail _ hm'))
        · exact hmin m' (hperm.mem_iff.2 (.tail _ hm'))
      case len =>
        have hlen := hperm.length_eq
        simp only [BinaryHeap.toList, Vector.length_toList, length_cons] at hlen
        exact (by omega : msgs.len ≤ self.msgs.len).trans h.len
  · exact h

theorem Inv.step (h : self.Inv t) {e : DelayedEvent} (ht : t ≤ e.now) : (self.step e).Inv e.now := by
  have h := h.mono ht
  rw [DefaultDelayedSender.step]
  split
  · exact h.delayPublish _ _ _ _
  · exact h.peek
  · exact h.pop

theorem Inv.foldl {events : List DelayedEvent} (h : self.Inv t)
    (hclock : (t :: events.map DelayedEvent.now).Pairwise (· ≤ ·)) :
    ∃ now, (events.foldl DefaultDelayedSender.step self).Inv now := by
  induction events generalizing self t with
  | nil => exact ⟨t, h⟩
  | cons e events ih =>
    exact ih (h.step (rel_of_pairwise_cons hclock (by simp))) hclock.of_cons

theorem inv_run (max : ℕ) {events : List DelayedEvent} (hclock : (events.map DelayedEvent.now).Pairwise (· ≤ ·)) :
    ∃ now, (run max events).Inv now := by
  cases events with
  | nil => exact ⟨0, inv_new max⟩
  | cons e events => exact ((inv_new max).step le_rfl).foldl hclock

theorem step_max (self : DefaultDelayedSender) (e : DelayedEvent) :
    (self.step e).mqttDelayedPublishMax = self.mqttDelayedPublishMax := by
  simp only [step, delayPublish, pop]
  grind [peek]

/-- At every time the accepted messages are those that are released, each one once and after its delay, and those in the
heap, which are not due before what was released while they were there. -/
theorem delayed_safe (max : ℕ) (events : List DelayedEvent)
    (hclock : (events.map DelayedEvent.now).Pairwise (· ≤ ·)) :
    let self := run max events
    (self.released.map Release.msg ++ self.msgs.toList).Perm self.accepted ∧
    self.accepted.map Accepted.number = List.range self.accepted.length ∧
    (∀ r ∈ self.released, r.msg.acceptedAt + r.msg.delay < r.releasedAt) ∧
    self.released.Pairwise (fun r r' => NotBefore r'.msg r) ∧
    (∀ r ∈ self.released, ∀ m ∈ self.msgs.toList, NotBefore m r) ∧
    self.msgs.len ≤ max ∧
    ∀ now «from» publish available expiry,
      let (refused, next) := self.delayPublish now «from» publish available expiry
      refused = none ∧ next.accepted = self.accepted ++
        [⟨.new now «from» publish available expiry, self.accepted.length, now⟩] ∨
      refused = some («from», publish) ∧ next = self := by
  intro self
  obtain ⟨now, h⟩ := inv_run max hclock
  have hmax : self.mqttDelayedPublishMax = max :=
    foldl_invariant (fun s e hs => (step_max s e).trans hs) rfl events
  refine ⟨h.perm, h.numbers, fun r hr => ?_, h.inOrder, h.rest, hmax ▸ h.len, fun now «from» publish _ _ => ?_⟩
  · rw [← h.expiredTime _ (h.perm.mem_iff.1 (mem_append_left _ (mem_map_of_mem hr)))]
    exact h.late r hr
  · rw [DefaultDelayedSender.delayPublish]
    split_ifs
    · exact .inl ⟨rfl, rfl⟩
    · exact .inr ⟨rfl, rfl⟩

def oneSecond (i : ℕ) : Broker.Publish :=
  { (Retain.plain "t" [i.toUInt8] none).publish with delayInterval := some 1 }

/-- Messages that are sent at some times, and then the loop. -/
def sendAndRelease (times : List TimestampMillis) : List DelayedEvent :=
  times.zipIdx.map (fun (t, i) => ⟨t, .delayPublish ⟨.custom, .ofClient 1 "c" 0⟩ (oneSecond i) false none⟩) ++
    times.flatMap fun _ => [⟨5000, .peek⟩, ⟨5000, .pop⟩]

theorem delayed_safe_two : (run 2 (sendAndRelease [0, 7, 7])).msgs.len ≤ 2 :=
  (delayed_safe 2 (sendAndRelease [0, 7, 7]) (by decide)).2.2.2.2.2.1

/-- Of two messages with one delay, the one that was accepted at an earlier time is released first. -/
theorem released_in_order (max : ℕ) (events : List DelayedEvent)
    (hclock : (events.map DelayedEvent.now).Pairwise (· ≤ ·)) {a b : Accepted}
    (ha : a ∈ (run max events).accepted) (hb : b ∈ (run max events).accepted) (hdelay : a.delay = b.delay)
    (hab : a.number < b.number) (htime : a.acceptedAt < b.acceptedAt) {pre post : List Release} {r : Release}
    (hr : (run max events).released = pre ++ r :: post) (hrb : r.msg = b) : a ∈ pre.map Release.msg := by
  obtain ⟨now, h⟩ := inv_run max hclock
  have hdue : a.expiredTime < b.expiredTime := by
    rw [h.expiredTime a ha, h.expiredTime b hb, hdelay]
    exact Int.add_lt_add_right htime _
  have hmem : r ∈ (run max events).released := hr ▸ mem_append_right _ mem_cons_self
  have hlater : ¬ NotBefore a r := fun hnot =>
    absurd (hrb ▸ hnot (hab.trans (hrb ▸ (h.before r hmem).1))) (not_le.2 hdue)
  rcases mem_append.1 (h.perm.mem_iff.2 ha) with ha | ha
  · rw [hr, map_append, map_cons] at ha
    rcases mem_append.1 ha with ha | ha
    · exact ha
    · rcases mem_cons.1 ha with rfl | ha
      · exact absurd (hrb ▸ hab) (lt_irrefl _)
      · obtain ⟨r', hr', rfl⟩ := mem_map.1 ha
        have hpair := (pairwise_append.1 (hr ▸ h.inOrder)).2.1
        exact absurd (rel_of_pairwise_cons hpair hr') hlater
  · exact absurd (h.rest r hmem a ha) hlater

theorem released_in_order_two :
    let a : Accepted := ⟨.new 0 ⟨.custom, .ofClient 1 "c" 0⟩ (oneSecond 0) false none, 0, 0⟩
    let b : Accepted := ⟨.new 7 ⟨.custom, .ofClient 1 "c" 0⟩ (oneSecond 1) false none, 1, 7⟩
    (run 2 (sendAndRelease [0, 7])).released = [⟨a, 5000, 2⟩] ++ [⟨b, 5000, 2⟩] ∧
      a ∈ [(⟨a, 5000, 2⟩ : Release)].map Release.msg := by
  intro a b
  have hreleased : (run 2 (sendAndRelease [0, 7])).released = [⟨a, 5000, 2⟩] ++ [⟨b, 5000, 2⟩] := by decide +kernel
  exact ⟨hreleased, released_in_order 2 _ (by decide) (a := a) (b := b) (by decide +kernel) (by decide +kernel) rfl
    (by decide) (by decide) hreleased rfl⟩

/-- In one millisecond the second of four messages is released after the third. -/
theorem released_out_of_order :
    (run 4 (sendAndRelease [0, 0, 0, 0])).accepted.map (fun m => m.publish.inner.payload) = [[0], [1], [2], [3]] ∧
    (run 4 (sendAndRelease [0, 0, 0, 0])).released.map (fun r => r.msg.publish.inner.payload) =
      [[0], [2], [1], [3]] := by
  decide +kernel

end DefaultDelayedSender

end FerroMq
