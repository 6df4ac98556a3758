import FerroMq.Router.Replay

/-!
# The order of subscribing and unsubscribing

`add` waits until its proposal has been applied and makes up to three attempts; `remove` leaves its proposal to
a task of its own and can be applied after a later `add` (`removed_after_add`).  `order_kept` says when the
order is kept.
-/

namespace FerroMq

open Lib DefaultRouter List

namespace SubscriptionOrder

inductive Op
  | subscribe (opts : SubscriptionOptions)
  | unsubscribe
  deriving DecidableEq

/-- A proposal that has been sent and not applied. -/
inductive Outstanding
  | add (attempt : ℕ) (opts : SubscriptionOptions)
  | remove
  deriving DecidableEq

/-- A call of `add` that has not returned: its newest attempt and the number of attempts. -/
structure Waiting where
  attempt : ℕ
  opts : SubscriptionOptions
  attempts : ℕ
  deriving DecidableEq

structure State where
  router : DefaultRouter
  outstanding : List Outstanding := []
  waiting : Option Waiting := none
  /-- The number of the next attempt. -/
  next : ℕ := 0
  /-- The calls so far. -/
  calls : List Op := []

inductive Event
  | call (op : Op)
  /-- An attempt to add has failed, and its proposal is lost or still on its way. -/
  | retry (lost : Bool)
  /-- An attempt to remove has failed while its proposal is still on its way. -/
  | resend (i : ℕ)
  /-- A proposal is committed and applied. -/
  | commit (i : ℕ)
  | other (x : Call)

variable (f : TopicFilter) (id : Id)

instance (f : TopicFilter) (c : ClientId) : (x : Call) → Decidable (x.IsFor f c)
  | .add g id _ => inferInstanceAs (Decidable (g = f ∧ id.clientId = c))
  | .remove g id => inferInstanceAs (Decidable (g = f ∧ id.clientId = c))

def step (s : State) : Event → State
  | .call (.subscribe opts) =>
    -- the call is made when the one before has returned
    if s.waiting.isNone then
      { s with
        outstanding := s.outstanding ++ [.add s.next opts]
        waiting := some { attempt := s.next, opts, attempts := 1 }
        next := s.next + 1
        calls := s.calls ++ [.subscribe opts] }
    else s
  | .call .unsubscribe =>
    if s.waiting.isNone then
      { s with outstanding := s.outstanding ++ [.remove], calls := s.calls ++ [.unsubscribe] }
    else s
  | .retry lost =>
    match s.waiting with
    | some w =>
      if w.attempts < 3 then
        { s with
          outstanding := (if lost then s.outstanding.erase (.add w.attempt w.opts)
            else s.outstanding) ++ [.add s.next w.opts]
          waiting := some { w with attempt := s.next, attempts := w.attempts + 1 }
          next := s.next + 1 }
      else s
    | none => s
  | .resend i =>
    if s.outstanding[i]? = some .remove then { s with outstanding := s.outstanding ++ [.remove] }
    else s
  | .commit i =>
    match s.outstanding[i]? with
    | some (.add attempt opts) =>
      let (result, router) := s.router.add f id opts
      { s with
        router
        outstanding := s.outstanding.eraseIdx i
        -- `add` returns with the success of its newest attempt
        waiting := s.waiting.filter fun w => ¬ (w.attempt = attempt ∧ result.isOk) }
    | some .remove =>
      { s with
        router := (s.router.remove f id).2
        outstanding := s.outstanding.eraseIdx i }
    | none => s
  | .other x =>
    if x.IsFor f id.clientId then s else { s with router := s.router.call x }

def run (s : State) (events : List Event) : State := events.foldl (step f id) s

def Settled (s : State) : Prop := s.outstanding = [] ∧ s.waiting = none

def Holds (s : State) : Prop := ∃ opts, s.router.subscription f id.clientId = some (id, opts)

def LastSubscribes (s : State) : Prop := ∃ opts, s.calls.getLast? = some (.subscribe opts)

/-- A session subscribes when none of its removals is outstanding, and unsubscribes when no attempt to
add is. -/
def InOrder (s : State) : Event → Prop
  | .call (.subscribe _) => ∀ x ∈ s.outstanding, x ≠ .remove
  | .call .unsubscribe => ∀ x ∈ s.outstanding, x = .remove
  | _ => True

/-- The proposals that are outstanding are of the kind of the last call, and if it has returned and
they are applied, then the router has what it asked for. -/
def Inv (s : State) : Prop :=
  match s.calls.getLast? with
  | none => s.outstanding = [] ∧ s.waiting = none ∧ ¬ Holds f id s
  | some (.subscribe _) => (∀ x ∈ s.outstanding, x ≠ .remove) ∧ (s.waiting = none → Holds f id s)
  | some .unsubscribe =>
    s.waiting = none ∧ (∀ x ∈ s.outstanding, x = .remove) ∧
      (s.outstanding = [] → ¬ Holds f id s)

variable {f id} {s : State}

/-! ## One event -/

variable {r : DefaultRouter} {opts : SubscriptionOptions}

theorem isOk_add : (r.add f id opts).1.isOk = (Topic.fromStr f).isOk := by
  unfold add
  cases Topic.fromStr f <;> rfl

theorem holds_add (h : (r.add f id opts).1.isOk = true ∨
      ∃ opts, r.subscription f id.clientId = some (id, opts)) :
    ∃ opts', (r.add f id opts).2.subscription f id.clientId = some (id, opts') := by
  have hcall : (r.add f id opts).2.subscription f id.clientId =
      onSubscription f id.clientId (r.subscription f id.clientId) (.add f id opts) :=
    subscription_call r (.add f id opts) f id.clientId
  simp only [onSubscription, true_and, and_self] at hcall
  rw [hcall]
  rw [isOk_add] at h
  split_ifs with hok
  · exact ⟨opts, rfl⟩
  · exact h.resolve_left hok

theorem not_holds_remove :
    ¬ ∃ opts, (r.remove f id).2.subscription f id.clientId = some (id, opts) := by
  have hcall : (r.remove f id).2.subscription f id.clientId =
      onSubscription f id.clientId (r.subscription f id.clientId) (.remove f id) :=
    subscription_call r (.remove f id) f id.clientId
  simp only [onSubscription, and_self, if_true] at hcall
  rw [hcall]
  rintro ⟨opts, h⟩
  have := (Option.filter_eq_some_iff.1 h).2
  simp at this

theorem subscription_other {x : Call} (hx : ¬ x.IsFor f id.clientId) :
    (r.call x).subscription f id.clientId = r.subscription f id.clientId := by
  rw [subscription_call]
  cases x with
  | add g i o => exact if_neg fun h => hx ⟨h.1.1.symm, h.1.2.symm⟩
  | remove g i => exact if_neg fun h => hx ⟨h.1.symm, h.2.symm⟩

theorem Inv.call (h : Inv f id s) (op : Op) (hok : InOrder s (.call op)) :
    Inv f id (step f id s (.call op)) := by
  cases op with
  | subscribe opts =>
    rw [step]
    split_ifs
    · unfold Inv
      simp only [getLast?_concat]
      refine ⟨fun x hx => ?_, nofun⟩
      rcases mem_append.1 hx with hx | hx
      · exact hok x hx
      · rw [mem_singleton.1 hx]
        exact nofun
    · exact h
  | unsubscribe =>
    rw [step]
    split_ifs with hw
    · unfold Inv
      simp only [getLast?_concat]
      refine ⟨Option.isNone_iff_eq_none.1 hw, fun x hx => ?_, fun he => ?_⟩
      · rcases mem_append.1 hx with hx | hx
        · exact hok x hx
        · exact mem_singleton.1 hx
      · exact absurd he (append_ne_nil_of_right_ne_nil _ (cons_ne_nil _ _))
    · exact h

theorem Inv.retry (h : Inv f id s) (lost : Bool) : Inv f id (step f id s (.retry lost)) := by
  rw [step]
  rcases hw : s.waiting with _ | w
  · exact h
  · by_cases hlt : w.attempts < 3
    · simp only [if_pos hlt]
      -- an `add` is waiting, so it is the last call
      unfold Inv at h ⊢
      rcases hlast : s.calls.getLast? with _ | _ | _ <;> simp only [hlast, hw] at h ⊢
      · exact absurd h.2.1 nofun
      · refine ⟨fun x hx => ?_, nofun⟩
        rcases mem_append.1 hx with hx | hx
        · refine h.1 x ?_
          split_ifs at hx
          · exact mem_of_mem_erase hx
          · exact hx
        · rw [mem_singleton.1 hx]
          exact nofun
      · exact absurd h.1 nofun
    · simp only [if_neg hlt]
      exact h

theorem Inv.last_of_remove (h : Inv f id s) (hmem : .remove ∈ s.outstanding) :
    s.calls.getLast? = some .unsubscribe := by
  unfold Inv at h
  rcases hlast : s.calls.getLast? with _ | _ | _ <;> simp only [hlast] at h
  · rw [h.1] at hmem
    cases hmem
  · exact absurd rfl (h.1 _ hmem)
  · rfl

theorem Inv.last_of_add (h : Inv f id s) {attempt : ℕ} (hmem : .add attempt opts ∈ s.outstanding) :
    ∃ opts', s.calls.getLast? = some (.subscribe opts') := by
  unfold Inv at h
  rcases hlast : s.calls.getLast? with _ | opts' | _ <;> simp only [hlast] at h
  · rw [h.1] at hmem
    cases hmem
  · exact ⟨opts', rfl⟩
  · cases h.2.1 _ hmem

theorem Inv.resend (h : Inv f id s) (i : ℕ) : Inv f id (step f id s (.resend i)) := by
  rw [step]
  split_ifs with hi
  · have hlast := h.last_of_remove (mem_of_getElem? hi)
    unfold Inv at h ⊢
    simp only [hlast] at h ⊢
    refine ⟨h.1, fun x hx => ?_, fun he => ?_⟩
    · rcases mem_append.1 hx with hx | hx
      · exact h.2.1 x hx
      · exact mem_singleton.1 hx
    · exact absurd he (append_ne_nil_of_right_ne_nil _ (cons_ne_nil _ _))
  · exact h

theorem Inv.commit (h : Inv f id s) (i : ℕ) : Inv f id (step f id s (.commit i)) := by
  rw [step]
  rcases hi : s.outstanding[i]? with _ | ⟨attempt, opts⟩ | _
  · exact h
  · obtain ⟨opts', hlast⟩ := h.last_of_add (mem_of_getElem? hi)
    unfold Inv at h ⊢
    simp only [hlast] at h ⊢
    refine ⟨fun x hx => h.1 x (mem_of_mem_eraseIdx hx), fun hw => holds_add ?_⟩
    rcases hwait : s.waiting with _ | w
    · exact .inr (h.2 hwait)
    · -- the newest attempt, or `add` would still be waiting
      rw [hwait, Option.filter_eq_none_iff] at hw
      have hnew : w.attempt = attempt ∧ (s.router.add f id opts).1.isOk = true := by
        simpa using hw w rfl
      exact .inl hnew.2
  · have hlast := h.last_of_remove (mem_of_getElem? hi)
    unfold Inv at h ⊢
    simp only [hlast] at h ⊢
    exact ⟨h.1, fun x hx => h.2.1 x (mem_of_mem_eraseIdx hx), fun _ => not_holds_remove⟩

theorem Inv.step (h : Inv f id s) (e : Event) (hok : InOrder s e) :
    Inv f id (SubscriptionOrder.step f id s e) := by
  cases e with
  | call op => exact h.call op hok
  | retry lost => exact h.retry lost
  | resend i => exact h.resend i
  | commit i => exact h.commit i
  | other x =>
    rw [SubscriptionOrder.step]
    split_ifs with hx
    · exact h
    · have hholds : Holds f id { s with router := s.router.call x } ↔ Holds f id s := by
        unfold Holds
        rw [subscription_other hx]
      unfold Inv at h ⊢
      rw [hholds]
      exact h

theorem Inv.holds_iff (h : Inv f id s) (hs : Settled s) : Holds f id s ↔ LastSubscribes s := by
  unfold Inv at h
  unfold LastSubscribes
  rcases hlast : s.calls.getLast? with _ | opts | _ <;> simp only [hlast] at h
  · exact iff_of_false h.2.2 nofun
  · exact iff_of_true (h.2 hs.2) ⟨opts, rfl⟩
  · exact iff_of_false (h.2.2 hs.1) nofun

/-- Once all proposals have been applied, the router has the subscription if and only if the last call
was to subscribe. -/
theorem order_kept (f : TopicFilter) (id : Id) (r : DefaultRouter)
    (hr : r.subscription f id.clientId = none) (events : List Event)
    (h : Along (step f id) InOrder { router := r } events)
    (hs : Settled (run f id { router := r } events)) :
    Holds f id (run f id { router := r } events) ↔
      LastSubscribes (run f id { router := r } events) := by
  have hstart : Inv f id { router := r } := by
    refine ⟨rfl, rfl, ?_⟩
    rintro ⟨opts, hopts⟩
    rw [hr] at hopts
    cases hopts
  exact (h.invariant (fun _ e he hs => hs.step e he) hstart).holds_iff hs

/-- The session waits for its removal before it subscribes again. -/
theorem order_kept_waiting :
    let id := Id.ofClient 1 "c" 0
    let s := run "a" id { router := {} }
      [.call (.subscribe default), .commit 0, .call .unsubscribe, .commit 0,
        .call (.subscribe default), .commit 0]
    Holds "a" id s ↔ LastSubscribes s := by
  intro id s
  refine order_kept "a" id {} rfl _ ⟨?_, trivial, ?_, trivial, ?_, trivial, trivial⟩
    ⟨by decide +kernel, by decide +kernel⟩
  all_goals exact fun x hx => nomatch hx

/-- The removal is applied after the `add` of the next call. -/
theorem removed_after_add :
    let id := Id.ofClient 1 "c" 0
    let s := run "a" id { router := {} }
      [.call (.subscribe default), .commit 0, .call .unsubscribe, .call (.subscribe default),
        .commit 1, .commit 0]
    Settled s ∧ LastSubscribes s ∧ ¬ Holds "a" id s := by
  intro id s
  have hnone : s.router.subscription "a" id.clientId = none := by decide +kernel
  refine ⟨⟨by decide +kernel, by decide +kernel⟩, ⟨default, by decide +kernel⟩, ?_⟩
  rintro ⟨opts, hopts⟩
  rw [hnone] at hopts
  cases hopts

end SubscriptionOrder

end FerroMq
