import FerroMq.Session.Outbound

/-!
# The delivery queue

A bounded queue with a channel of tokens: a sender puts an item in and sends a token, and the receiver takes a
token and then the first item.  If the queue is full, a policy rejects the new item or drops the oldest one.
One operation after the other, there are enough tokens (`accounted_run`); interleaved, an item may be left
without one (`asleep`, `awake_of_spared`).
-/

namespace FerroMq

open Lib Codec List

/-! ## The queue and its tokens -/

inductive Policy
  | current
  | early
  deriving DecidableEq

structure Queue (α : Type) where
  cap : ℕ
  inner : List α

namespace Queue

variable {α : Type}

def push (self : Queue α) (v : α) : Except α (Queue α) :=
  if self.inner.length ≥ self.cap then .error v else .ok { self with inner := self.inner ++ [v] }

def pop (self : Queue α) : Option α × Queue α :=
  match self.inner with
  | v :: inner => (some v, { self with inner })
  | [] => (none, self)

variable {self : Queue α}

theorem push_of_lt (h : self.inner.length < self.cap) (v : α) :
    self.push v = .ok { self with inner := self.inner ++ [v] } :=
  if_neg (Nat.not_le_of_lt h)

theorem push_of_le (h : self.cap ≤ self.inner.length) (v : α) : self.push v = .error v := if_pos h

end Queue

/-- The channel of the tokens.  It has `buffer` slots for all senders, and further ones for the senders
themselves. -/
structure Tokens where
  buffer : ℕ
  pending : ℕ

namespace Tokens

/-- `accepts` says if there is a slot when those for all senders are taken. -/
def trySend (self : Tokens) (accepts : Bool) : Tokens :=
  if self.pending < self.buffer ∨ accepts then { self with pending := self.pending + 1 } else self

def receive (self : Tokens) : Option Tokens :=
  match self.pending with
  | pending + 1 => some { self with pending }
  | 0 => none

end Tokens

structure DeliveryQueue (α : Type) where
  queue : Queue α
  tokens : Tokens

/-- What becomes of an item that is sent, and of the one that was removed for it. -/
inductive SendOutcome (α : Type)
  | accepted
  | rejected (v : α) (removed : Option α)
  | replaced (removed : Option α)

namespace SendOutcome

variable {α : Type}

def result : SendOutcome α → Except α Unit
  | accepted => .ok ()
  | rejected v _ => .error v
  | replaced (some removed) => .error removed
  | replaced none => .ok ()

def removed : SendOutcome α → Option α
  | accepted => none
  | rejected _ removed => removed
  | replaced removed => removed

def isAccepted : SendOutcome α → Bool
  | rejected _ _ => false
  | _ => true

end SendOutcome

namespace DeliveryQueue

variable {α : Type}

def channel (queue : Queue α) (buffer : ℕ) : DeliveryQueue α where
  queue
  tokens := (fun tokens : Tokens => tokens.trySend false)^[queue.inner.length] ⟨buffer, 0⟩

def send (self : DeliveryQueue α) (policyFn : α → Policy) (accepts : Bool) (v : α) :
    SendOutcome α × DeliveryQueue α :=
  match self.queue.push v with
  | .ok queue => (.accepted, { queue, tokens := self.tokens.trySend accepts })
  | .error v =>
    match policyFn v with
    | .current => (.rejected v none, self)
    | .early =>
      let (removed, queue) := self.queue.pop
      match queue.push v with
      | .error v => (.rejected v removed, { self with queue })
      | .ok queue => (.replaced removed, { self with queue })

def pop (self : DeliveryQueue α) : Option α × DeliveryQueue α :=
  let (v, queue) := self.queue.pop
  (v, { self with queue })

def pollNext (self : DeliveryQueue α) : Option (Option α) × DeliveryQueue α :=
  match self.tokens.receive with
  | some tokens =>
    let (v, queue) := self.queue.pop
    (some v, { queue, tokens })
  | none => (none, self)

/-- The queue is within its capacity, the channel has room for as many tokens, and there is a token for
every item. -/
structure Covered (s : DeliveryQueue α) : Prop where
  within : s.queue.inner.length ≤ s.queue.cap
  room : s.queue.cap ≤ s.tokens.buffer
  awake : s.queue.inner.length ≤ s.tokens.pending

variable {s : DeliveryQueue α}

theorem pending_iterate (buffer : ℕ) {n : ℕ} (h : n ≤ buffer) :
    (fun tokens : Tokens => tokens.trySend false)^[n] ⟨buffer, 0⟩ = ⟨buffer, n⟩ := by
  induction n with
  | zero => rfl
  | succ n ih =>
    rw [Function.iterate_succ_apply', ih (Nat.le_of_succ_le h), Tokens.trySend, if_pos (.inl h)]

theorem covered_channel {queue : Queue α} {buffer : ℕ} (hqueue : queue.inner.length ≤ queue.cap)
    (hbuffer : queue.cap ≤ buffer) : (channel queue buffer).Covered := by
  have htokens : (channel queue buffer).tokens = ⟨buffer, queue.inner.length⟩ :=
    pending_iterate buffer (hqueue.trans hbuffer)
  exact ⟨hqueue, by rw [htokens]; exact hbuffer, by rw [htokens]; exact le_rfl⟩

/-! ## What an operation can do -/

theorem send_cases (h : s.Covered) (policyFn : α → Policy) (accepts : Bool) (v : α) :
    (s.queue.inner.length < s.queue.cap ∧ s.send policyFn accepts v =
      (.accepted, { queue := { s.queue with inner := s.queue.inner ++ [v] },
                    tokens := s.tokens.trySend accepts })) ∨
    s.send policyFn accepts v = (.rejected v none, s) ∨
    (∃ oldest rest, s.queue.inner = oldest :: rest ∧ s.send policyFn accepts v =
      (.replaced (some oldest), { s with queue := { s.queue with inner := rest ++ [v] } })) := by
  rcases Nat.lt_or_ge s.queue.inner.length s.queue.cap with hroom | hfull
  · exact .inl ⟨hroom, by rw [send, Queue.push_of_lt hroom]⟩
  right
  rw [send, Queue.push_of_le hfull]
  dsimp only
  cases policyFn v with
  | current => exact .inl rfl
  | early =>
    unfold Queue.pop
    cases hinner : s.queue.inner with
    | nil =>
      left
      dsimp only
      rw [Queue.push_of_le hfull]
    | cons oldest rest =>
      have hwithin := h.within
      rw [hinner, length_cons] at hwithin
      have hroom : ({ s.queue with inner := rest } : Queue α).inner.length < s.queue.cap := hwithin
      refine .inr ⟨oldest, rest, rfl, ?_⟩
      dsimp only
      rw [Queue.push_of_lt hroom]

theorem pop_cases (s : DeliveryQueue α) :
    (s.queue.inner = [] ∧ s.pop = (none, s)) ∨
    (∃ oldest rest, s.queue.inner = oldest :: rest ∧
      s.pop = (some oldest, { s with queue := { s.queue with inner := rest } })) := by
  unfold pop Queue.pop
  cases s.queue.inner with
  | nil => exact .inl ⟨rfl, rfl⟩
  | cons oldest rest => exact .inr ⟨oldest, rest, rfl, rfl⟩

theorem inner_pop (s : DeliveryQueue α) :
    s.queue.inner = s.pop.1.toList ++ s.pop.2.queue.inner := by
  rcases pop_cases s with ⟨-, heq⟩ | ⟨oldest, rest, hinner, heq⟩
  · rw [heq]
    rfl
  · rw [heq]
    exact hinner

theorem pollNext_cases (s : DeliveryQueue α) :
    (s.tokens.pending = 0 ∧ s.pollNext = (none, s)) ∨
    (∃ pending, s.tokens.pending = pending + 1 ∧
      s.pollNext = (some s.pop.1, { s.pop.2 with tokens := { s.tokens with pending } })) := by
  unfold pollNext Tokens.receive
  cases s.tokens.pending with
  | zero => exact .inl ⟨rfl, rfl⟩
  | succ pending => exact .inr ⟨pending, rfl, rfl⟩

theorem length_le_pending_trySend (h : s.Covered) (hroom : s.queue.inner.length < s.queue.cap)
    (accepts : Bool) : s.queue.inner.length + 1 ≤ (s.tokens.trySend accepts).pending := by
  have hbuffer := h.room
  have hawake := h.awake
  unfold Tokens.trySend
  split_ifs with hslot
  · exact Nat.succ_le_succ hawake
  · rw [not_or] at hslot
    omega

theorem buffer_trySend (tokens : Tokens) (accepts : Bool) :
    (tokens.trySend accepts).buffer = tokens.buffer := by
  unfold Tokens.trySend
  split_ifs <;> rfl

theorem Covered.send (h : s.Covered) (policyFn : α → Policy) (accepts : Bool) (v : α) :
    (s.send policyFn accepts v).2.Covered := by
  rcases send_cases h policyFn accepts v with ⟨hroom, heq⟩ | heq | ⟨oldest, rest, hinner, heq⟩
  · rw [heq]
    refine ⟨?_, ?_, ?_⟩
    · simpa using hroom
    · simpa [buffer_trySend] using h.room
    · simpa using length_le_pending_trySend h hroom accepts
  · rw [heq]
    exact h
  · have hwithin := h.within
    have hawake := h.awake
    rw [hinner, length_cons] at hwithin hawake
    rw [heq]
    exact ⟨by simpa using hwithin, h.room, by simpa using hawake⟩

theorem Covered.pop (h : s.Covered) : s.pop.2.Covered := by
  rcases pop_cases s with ⟨-, heq⟩ | ⟨oldest, rest, hinner, heq⟩
  · rw [heq]
    exact h
  · have hwithin := h.within
    have hawake := h.awake
    rw [hinner, length_cons] at hwithin hawake
    rw [heq]
    exact ⟨Nat.le_of_succ_le hwithin, h.room, Nat.le_of_succ_le hawake⟩

theorem Covered.pollNext (h : s.Covered) : s.pollNext.2.Covered := by
  rcases pollNext_cases s with ⟨-, heq⟩ | ⟨pending, hpending, heq⟩
  · rw [heq]
    exact h
  rw [heq]
  have hawake := h.awake
  rw [hpending] at hawake
  rcases pop_cases s with ⟨hinner, hpop⟩ | ⟨oldest, rest, hinner, hpop⟩
  · rw [hpop]
    exact ⟨h.within, h.room, by simp [hinner]⟩
  · have hwithin := h.within
    rw [hinner, length_cons] at hwithin hawake
    rw [hpop]
    exact ⟨Nat.le_of_succ_le hwithin, h.room, Nat.le_of_succ_le_succ hawake⟩

end DeliveryQueue

/-! ## One operation after the other -/

/-- A delivery queue and what has happened to it. -/
structure QueueHistory (α : Type) where
  state : DeliveryQueue α
  /-- The items that were sent. -/
  sent : List α
  /-- Those that were put into the queue, in this order. -/
  accepted : List α
  /-- Those that have left the queue, in this order. -/
  left : List α := []
  received : List α := []
  popped : List α := []
  /-- What `send` has returned. -/
  returned : List α := []

namespace QueueHistory

variable {α : Type}

inductive Operation (α : Type)
  | send (v : α) (accepts : Bool)
  | pop
  | pollNext

/-- The sender has a slot of its own. -/
def Operation.withSlot : Operation α → Operation α
  | .send v _ => .send v true
  | op => op

def step (policyFn : α → Policy) (s : QueueHistory α) : Operation α → QueueHistory α
  | .send v accepts =>
    let (outcome, state) := s.state.send policyFn accepts v
    { s with
      state
      sent := s.sent ++ [v]
      accepted := if outcome.isAccepted then s.accepted ++ [v] else s.accepted
      left := s.left ++ outcome.removed.toList
      returned := match outcome.result with
        | .error x => s.returned ++ [x]
        | .ok _ => s.returned }
  | .pop =>
    let (v, state) := s.state.pop
    { s with state, left := s.left ++ v.toList, popped := s.popped ++ v.toList }
  | .pollNext =>
    let (v, state) := s.state.pollNext
    { s with state, left := s.left ++ v.join.toList, received := s.received ++ v.join.toList }

def start (queue : Queue α) (buffer : ℕ) : QueueHistory α where
  state := .channel queue buffer
  sent := queue.inner
  accepted := queue.inner

/-- The queue is within its capacity; the items leave it in the order in which they were accepted; every
item that was sent is in one place; and there is a token for every item in the queue. -/
structure Accounted (s : QueueHistory α) : Prop where
  within : s.state.queue.inner.length ≤ s.state.queue.cap
  order : s.accepted = s.left ++ s.state.queue.inner
  places : (s.sent : Multiset α) = s.state.queue.inner + s.received + s.popped + s.returned
  awake : s.state.queue.inner.length ≤ s.state.tokens.pending

/-- The part of `Accounted` that is about the history. -/
structure Ordered (s : QueueHistory α) : Prop where
  order : s.accepted = s.left ++ s.state.queue.inner
  places : (s.sent : Multiset α) = s.state.queue.inner + s.received + s.popped + s.returned

variable {s : QueueHistory α} (policyFn : α → Policy)

theorem Ordered.send (hc : s.state.Covered) (h : s.Ordered) (v : α) (accepts : Bool) :
    (s.step policyFn (.send v accepts)).Ordered := by
  obtain ⟨horder, hplaces⟩ := h
  rcases DeliveryQueue.send_cases hc policyFn accepts v with ⟨-, heq⟩ | heq | ⟨oldest, rest, hinner, heq⟩
  · simp only [step, heq]
    constructor
    · simp [SendOutcome.isAccepted, SendOutcome.removed, horder]
    · simp only [SendOutcome.result, ← Multiset.coe_add, hplaces]
      abel
  · simp only [step, heq]
    constructor
    · simpa [SendOutcome.isAccepted, SendOutcome.removed] using horder
    · simp only [SendOutcome.result, ← Multiset.coe_add, hplaces]
      abel
  · rw [hinner] at horder hplaces
    simp only [step, heq]
    constructor
    · simp [SendOutcome.isAccepted, SendOutcome.removed, horder]
    · simp only [SendOutcome.result, ← Multiset.coe_add, hplaces]
      rw [← singleton_append, ← Multiset.coe_add]
      abel

theorem Ordered.pop (h : s.Ordered) : (s.step policyFn .pop).Ordered := by
  obtain ⟨horder, hplaces⟩ := h
  rw [s.state.inner_pop] at horder hplaces
  constructor
  · simp [step, horder]
  · simp only [step, ← Multiset.coe_add] at hplaces ⊢
    rw [hplaces]
    abel

theorem Ordered.pollNext (h : s.Ordered) : (s.step policyFn .pollNext).Ordered := by
  obtain ⟨horder, hplaces⟩ := h
  rcases s.state.pollNext_cases with ⟨-, heq⟩ | ⟨pending, -, heq⟩
  · constructor
    · simpa [step, heq] using horder
    · simpa [step, heq] using hplaces
  · rw [s.state.inner_pop] at horder hplaces
    constructor
    · simp [step, heq, horder]
    · simp only [step, heq, Option.join_some, ← Multiset.coe_add] at hplaces ⊢
      rw [hplaces]
      abel

/-- After every sequence of operations, one after the other, everything is accounted for. -/
theorem accounted_run (cap : ℕ) (items : {l : List α // l.length ≤ cap}) (buffer : {n : ℕ // cap ≤ n})
    (ops : List (Operation α)) :
    (ops.foldl (step policyFn) (start ⟨cap, items⟩ buffer)).Accounted := by
  have hstep : ∀ (s : QueueHistory α) (op : Operation α), s.state.Covered ∧ s.Ordered →
      (s.step policyFn op).state.Covered ∧ (s.step policyFn op).Ordered := by
    rintro s op ⟨hc, ho⟩
    cases op with
    | send v accepts => exact ⟨hc.send policyFn accepts v, ho.send policyFn hc v accepts⟩
    | pop => exact ⟨hc.pop, ho.pop policyFn⟩
    | pollNext => exact ⟨hc.pollNext, ho.pollNext policyFn⟩
  have hstart : (start ⟨cap, items.1⟩ buffer : QueueHistory α).state.Covered ∧
      (start ⟨cap, items.1⟩ buffer : QueueHistory α).Ordered :=
    ⟨DeliveryQueue.covered_channel items.2 buffer.2, rfl, by simp [start, DeliveryQueue.channel]⟩
  obtain ⟨hc, ho⟩ := foldl_invariant hstep hstart ops
  exact ⟨hc.within, ho.order, ho.places, hc.awake⟩

end QueueHistory

def deliveryPolicy (d : Delivery) : Policy :=
  if d.publish.qos = .atMostOnce then .current else .early

/-- The queue of the event loop is such a queue. -/
theorem Outbound.enqueue_eq_send (queueCap : ℕ) (queue : List Delivery) (d : Delivery) (tokens : Tokens)
    (accepts : Bool) :
    enqueue queueCap queue d =
      ((DeliveryQueue.mk ⟨queueCap, queue⟩ tokens).send deliveryPolicy accepts d).2.queue.inner := by
  rcases Nat.lt_or_ge queue.length queueCap with hroom | hfull
  · rw [enqueue, if_pos hroom, DeliveryQueue.send, Queue.push_of_lt hroom]
  rw [enqueue, if_neg (Nat.not_lt_of_le hfull), DeliveryQueue.send, Queue.push_of_le hfull]
  dsimp only [deliveryPolicy]
  split_ifs with hqos hrest
  · rfl
  · rw [Queue.push_of_lt (by cases queue <;> exact hrest)]
    cases queue <;> rfl
  · rw [Queue.push_of_le (by cases queue <;> exact Nat.le_of_not_lt hrest)]
    cases queue <;> rfl

/-- While no message of QoS 0 comes in, the queue holds the newest messages. -/
theorem Outbound.foldl_enqueue (cap : ℕ) (l : List Delivery) {ds : List Delivery}
    (hds : ∀ d ∈ ds, d.publish.qos ≠ .atMostOnce) :
    ds.foldl (enqueue cap) (l.rtake cap) = (l ++ ds).rtake cap := by
  induction ds generalizing l with
  | nil => rw [append_nil, foldl_nil]
  | cons d ds ih =>
    obtain ⟨hd, hds⟩ := forall_mem_cons.1 hds
    have hstep : enqueue cap (l.rtake cap) d = (l ++ [d]).rtake cap := by
      simp only [enqueue, rtake, if_neg hd, tail_drop, length_drop, length_append, length_singleton]
      rcases Nat.lt_or_ge l.length cap with hroom | hfull
      · rw [if_pos (by omega), Nat.sub_eq_zero_of_le hroom, Nat.sub_eq_zero_of_le hroom.le]
        rfl
      · rw [if_neg (by omega)]
        grind [drop_eq_nil_iff]
    rw [foldl_cons, hstep, ih _ hds, append_assoc]
    rfl

theorem Outbound.foldl_enqueue_two :
    let d (m : ℕ) : Delivery := ⟨m, false, false, .atLeastOnce, "t", none, [], none⟩
    [d 1, d 2].foldl (enqueue 1) [] = [d 2] :=
  foldl_enqueue 1 [] (by decide)

/-! ## Step by step -/

/-- A delivery queue and the operations that are in progress. -/
structure QueueTasks (α : Type) where
  state : DeliveryQueue α
  /-- How many senders have put an item in and not sent the token. -/
  signalling : ℕ := 0
  /-- What senders found no room for. -/
  evicting : List α := []
  /-- What senders have made room for, with what they removed. -/
  retrying : List (α × Option α) := []
  /-- How many receivers have taken a token and no item. -/
  woken : ℕ := 0

namespace QueueTasks

variable {α : Type}

inductive Step (α : Type)
  /-- A sender tries to put an item in. -/
  | push (v : α)
  | signal
  | evict (i : ℕ)
  | retry (i : ℕ)
  /-- A receiver takes a token. -/
  | receive
  | take
  | pop

/-- The steps of the operations, with the policy that removes the oldest item.  The sender of a token is
a clone with a slot of its own. -/
def step (s : QueueTasks α) : Step α → QueueTasks α
  | .push v =>
    match s.state.queue.push v with
    | .ok queue => { s with state := { s.state with queue }, signalling := s.signalling + 1 }
    | .error v => { s with evicting := s.evicting ++ [v] }
  | .signal =>
    match s.signalling with
    | signalling + 1 =>
      { s with state := { s.state with tokens := s.state.tokens.trySend true }, signalling }
    | 0 => s
  | .evict i =>
    match s.evicting[i]? with
    | some v =>
      { s with
        state := s.state.pop.2
        evicting := s.evicting.eraseIdx i
        retrying := s.retrying ++ [(v, s.state.pop.1)] }
    | none => s
  | .retry i =>
    match s.retrying[i]? with
    | some (v, _) =>
      match s.state.queue.push v with
      | .ok queue => { s with state := { s.state with queue }, retrying := s.retrying.eraseIdx i }
      | .error _ => { s with retrying := s.retrying.eraseIdx i }
    | none => s
  | .receive =>
    match s.state.tokens.receive with
    | some tokens => { s with state := { s.state with tokens }, woken := s.woken + 1 }
    | none => s
  | .take =>
    match s.woken with
    | woken + 1 => { s with state := s.state.pop.2, woken }
    | 0 => s
  | .pop => { s with state := s.state.pop.2 }

/-- No operation is in progress. -/
structure Idle (s : QueueTasks α) : Prop where
  signalling : s.signalling = 0
  evicting : s.evicting = []
  retrying : s.retrying = []
  woken : s.woken = 0

/-- The steps of an operation that is not interrupted. -/
def steps (state : DeliveryQueue α) : QueueHistory.Operation α → List (Step α)
  | .send v _ =>
    if state.queue.inner.length < state.queue.cap then [.push v, .signal]
    else [.push v, .evict 0, .retry 0]
  | .pop => [.pop]
  | .pollNext => [.receive, .take]

theorem run_steps (h : QueueHistory α) (op : QueueHistory.Operation α) :
    (steps h.state op).foldl step { state := h.state } =
      { state := (h.step (fun _ => .early) op.withSlot).state } := by
  obtain ⟨state⟩ := h
  cases op with
  | pop => rfl
  | pollNext =>
    simp only [steps, foldl, step, QueueHistory.step, DeliveryQueue.pollNext]
    cases state.tokens.receive with
    | none | some tokens => rfl
  | send v =>
    change _ = QueueTasks.mk (state.send (fun _ => .early) true v).2 _ _ _ _
    simp only [steps, DeliveryQueue.send]
    rcases Nat.lt_or_ge state.queue.inner.length state.queue.cap with hroom | hfull
    · rw [if_pos hroom, Queue.push_of_lt hroom]
      simp [step, Queue.push_of_lt hroom]
    · rw [if_neg (Nat.not_lt_of_le hfull), Queue.push_of_le hfull]
      simp only [foldl, step, Queue.push_of_le hfull]
      -- the second `push` is made after the `pop`, in both
      change (match state.queue.pop.2.push v with
        | .ok queue => _
        | .error _ => _) = _
      cases state.queue.pop.2.push v with
      | ok queue | error v => rfl

/-- Operations that are not interrupted, one after the other, are those of the queue. -/
theorem run_operations (h : QueueHistory α) (ops : List (QueueHistory.Operation α)) :
    ops.foldl (fun s op => (steps s.state op).foldl step s) { state := h.state } =
      { state := ((ops.map .withSlot).foldl (QueueHistory.step fun _ => .early) h).state } := by
  induction ops generalizing h with
  | nil => rfl
  | cons op ops ih => rw [map_cons, foldl_cons, foldl_cons, run_steps, ih]

/-- Nothing sleeps in the queue: if no operation is in progress, there is a token for every item. -/
def Awake (s : QueueTasks α) : Prop :=
  s.Idle → s.state.queue.inner.length ≤ s.state.tokens.pending

/-- The items that need a token: those in the queue, and those for which another one was removed. -/
def owed (s : QueueTasks α) : ℕ := s.state.queue.inner.length + s.retrying.countP (·.2.isSome)

def covering (s : QueueTasks α) : ℕ := s.state.tokens.pending + s.signalling + s.woken

/-- A token is to spare when a receiver finds the queue empty, and when a sender that has removed
nothing finds room. -/
def Spared (s : QueueTasks α) : Step α → Prop
  | .take => s.woken ≠ 0 → s.state.queue.inner = [] → s.owed < s.covering
  | .retry i => (s.retrying[i]?).any (·.2.isNone) = true →
      s.state.queue.inner.length < s.state.queue.cap → s.owed < s.covering
  | _ => True

variable {s : QueueTasks α}

theorem countP_eraseIdx {β : Type} (p : β → Bool) {l : List β} {i : ℕ} {x : β} (h : l[i]? = some x) :
    l.countP p = (l.eraseIdx i).countP p + if p x then 1 else 0 := by
  obtain ⟨hi, rfl⟩ := List.getElem?_eq_some_iff.1 h
  rw [← (getElem_cons_eraseIdx_perm hi).countP_eq, countP_cons]

theorem length_pop (s : DeliveryQueue α) :
    s.queue.inner.length = s.pop.2.queue.inner.length + if s.pop.1.isSome then 1 else 0 := by
  rw [s.inner_pop, length_append, Nat.add_comm]
  cases s.pop.1 <;> rfl

theorem tokens_pop (s : DeliveryQueue α) : s.pop.2.tokens = s.tokens := rfl

/-- An item that is put in takes the token of the one that was removed for it, or a spare one. -/
theorem owed_le_covering_retry (h : s.owed ≤ s.covering) {i : ℕ} (ha : s.Spared (.retry i)) :
    (s.step (.retry i)).owed ≤ (s.step (.retry i)).covering := by
  unfold owed covering at h ⊢
  cases hi : s.retrying[i]? with
  | none => simpa only [step, hi] using h
  | some x =>
    have hcount := countP_eraseIdx (fun y : α × Option α => y.2.isSome) hi
    rcases Nat.lt_or_ge s.state.queue.inner.length s.state.queue.cap with hroom | hfull
    · simp only [step, hi, Queue.push_of_lt hroom, length_append, length_singleton]
      cases hremoved : x.2 with
      | some y =>
        simp only [hremoved, Option.isSome_some, if_true] at hcount
        omega
      | none =>
        have hspare := ha (by simp [hi, hremoved]) hroom
        unfold owed covering at hspare
        omega
    · simp only [step, hi, Queue.push_of_le hfull]
      omega

theorem owed_le_covering_step (h : s.owed ≤ s.covering) {a : Step α} (ha : s.Spared a) :
    (s.step a).owed ≤ (s.step a).covering := by
  unfold owed covering at h ⊢
  have hlength := length_pop s.state
  cases a with
  | push v =>
    rcases Nat.lt_or_ge s.state.queue.inner.length s.state.queue.cap with hroom | hfull
    · simp only [step, Queue.push_of_lt hroom, length_append, length_singleton]
      omega
    · simpa only [step, Queue.push_of_le hfull] using h
  | signal =>
    cases hsignal : s.signalling with
    | zero => simpa only [step, hsignal] using h
    | succ n =>
      simp only [step, hsignal, Tokens.trySend, or_true, if_true]
      omega
  | evict i =>
    cases hi : s.evicting[i]? with
    | none => simpa only [step, hi] using h
    | some v =>
      simp only [step, hi, countP_append, countP_singleton, tokens_pop]
      omega
  | retry i => exact owed_le_covering_retry h ha
  | receive =>
    cases htokens : s.state.tokens.pending with
    | zero => simpa only [step, Tokens.receive, htokens] using h
    | succ n =>
      simp only [step, Tokens.receive, htokens]
      omega
  | take =>
    cases hwoken : s.woken with
    | zero => simpa only [step, hwoken] using h
    | succ n =>
      simp only [step, hwoken, tokens_pop]
      rcases s.state.pop_cases with ⟨hnil, hpop⟩ | ⟨oldest, rest, -, hpop⟩
      · have hspare := ha (by omega) hnil
        unfold owed covering at hspare
        omega
      · simp only [hpop, Option.isSome_some, if_true] at hlength ⊢
        omega
  | pop =>
    simp only [step, tokens_pop]
    omega

theorem owed_le_covering_start {queue : Queue α} {buffer : ℕ} (hqueue : queue.inner.length ≤ queue.cap)
    (hbuffer : queue.cap ≤ buffer) :
    (QueueTasks.mk (.channel queue buffer) 0 [] [] 0).owed ≤
      (QueueTasks.mk (.channel queue buffer) 0 [] [] 0).covering :=
  (DeliveryQueue.covered_channel hqueue hbuffer).awake

theorem awake_of_owed_le (h : s.owed ≤ s.covering) : s.Awake := by
  intro hidle
  simpa [owed, covering, hidle.retrying, hidle.signalling, hidle.woken] using h

/-- In every run in which a token is to spare whenever one is lost, nothing sleeps in the queue at any
time. -/
theorem awake_of_spared (cap : ℕ) (items : {l : List α // l.length ≤ cap}) (buffer : {n : ℕ // cap ≤ n})
    (steps : List (Step α))
    (h : Along step Spared { state := .channel ⟨cap, items⟩ buffer } steps) :
    ∀ pre, pre <+: steps → (pre.foldl step { state := .channel ⟨cap, items⟩ buffer }).Awake := by
  rintro pre ⟨post, rfl⟩
  refine awake_of_owed_le ?_
  exact (along_append.1 h).1.invariant (fun _ _ ha hs => owed_le_covering_step hs ha)
    (owed_le_covering_start items.2 buffer.2)

/-- The receiver comes after the sender. -/
theorem awake_of_spared_replaced :
    let start : QueueTasks String := { state := .channel ⟨1, ["old"]⟩ 1 }
    let steps : List (Step String) := [.push "new", .evict 0, .retry 0, .receive, .take]
    Along step Spared start steps ∧ (steps.foldl step start).Awake := by
  intro start steps
  have h : Along step Spared start steps := by
    simp [Along, Spared, steps]
    decide +kernel
  exact ⟨h, awake_of_spared 1 ⟨["old"], by decide⟩ ⟨1, le_rfl⟩ steps h steps (List.prefix_refl _)⟩

/-- A sender finds the queue full; the receiver empties it; the sender finds nothing to remove and puts
its item in, without a token. -/
theorem asleep :
    let start : QueueTasks String := { state := .channel ⟨1, ["old"]⟩ 1 }
    let s := [Step.push "new", .receive, .take, .evict 0, .retry 0].foldl step start
    s.Idle ∧ s.state.queue.inner = ["new"] ∧ s.state.tokens.pending = 0 ∧ ¬ s.Awake := by
  intro start s
  have hidle : s.Idle := ⟨by decide +kernel, by decide +kernel, by decide +kernel, by decide +kernel⟩
  have hqueue : s.state.queue.inner = ["new"] := by decide +kernel
  have htokens : s.state.tokens.pending = 0 := by decide +kernel
  refine ⟨hidle, hqueue, htokens, fun hawake => ?_⟩
  have hle := hawake hidle
  rw [hqueue, htokens] at hle
  exact nomatch hle

end QueueTasks

end FerroMq
