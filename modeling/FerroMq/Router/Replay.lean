import FerroMq.Router.Snapshot

/-!
# Replaying a log onto a state that contains part of it

Messages are applied a second time, to a state in which every cell may already be some steps ahead.
Subscriptions end as they did the first time (`subscription_replay`), and the entry of a client if its messages
were all accepted then (`onEntry_replay`).
-/

namespace FerroMq

open Lib List

/-! ## Subscriptions -/

namespace DefaultRouter

variable {r : DefaultRouter} {f : TopicFilter} {c : ClientId}

def onSubscription (f : TopicFilter) (c : ClientId) (x : Option (Id × SubscriptionOptions)) :
    Call → Option (Id × SubscriptionOptions)
  | .add g id opts =>
    if (f = g ∧ c = id.clientId) ∧ (Topic.fromStr g).isOk then some (id, opts) else x
  | .remove g id => if f = g ∧ c = id.clientId then x.filter (·.1 ≠ id) else x

theorem subscription_call (r : DefaultRouter) (x : Call) (f : TopicFilter) (c : ClientId) :
    (r.call x).subscription f c = onSubscription f c (r.subscription f c) x := by
  cases x with
  | add g id opts =>
    rcases ht : Topic.fromStr g with e | t
    · simp [call, add, onSubscription, ht, Except.isOk, Except.toBool]
    · simp only [call, add, onSubscription, ht, Except.isOk, Except.toBool, and_true]
      exact subscription_insertRelation _ g f id opts c
  | remove g id =>
    simp only [call, onSubscription]
    rw [subscription_remove]
    by_cases h : f = g ∧ c = id.clientId
    · obtain ⟨rfl, rfl⟩ := h
      by_cases he : r.removeEnable f id = true
      · obtain ⟨opts, hopts⟩ := removeEnable_iff.1 he
        rw [if_pos ⟨rfl, rfl, he⟩, if_pos ⟨rfl, rfl⟩, hopts]
        simp [Option.filter]
      · rw [if_neg fun h => he h.2.2, if_pos ⟨rfl, rfl⟩]
        rcases hs : r.subscription f id.clientId with _ | s
        · rfl
        · have hid : s.1 ≠ id := by
            rintro rfl
            exact he (removeEnable_iff.2 ⟨s.2, hs⟩)
          simp [Option.filter, hid]
    · rw [if_neg h, if_neg fun h' => h ⟨h'.1, h'.2.1⟩]

theorem subscription_run (r : DefaultRouter) (calls : List Call) (f : TopicFilter) (c : ClientId) :
    (r.run calls).subscription f c = calls.foldl (onSubscription f c) (r.subscription f c) := by
  induction calls generalizing r with
  | nil => rfl
  | cons x calls ih =>
    rw [foldl_cons, ← subscription_call]
    exact ih (r.call x)

theorem onSubscription_cases (f : TopicFilter) (c : ClientId) (y : Call) :
    (∃ v, ∀ x, onSubscription f c x y = some v) ∨
      ∃ p : Id × SubscriptionOptions → Bool, ∀ x, onSubscription f c x y = x.filter p := by
  have hkeep (x : Option (Id × SubscriptionOptions)) : x = x.filter fun _ => true := by
    cases x <;> rfl
  cases y with
  | add g id opts =>
    by_cases h : (f = g ∧ c = id.clientId) ∧ (Topic.fromStr g).isOk
    · exact .inl ⟨(id, opts), fun x => if_pos h⟩
    · exact .inr ⟨fun _ => true, fun x => (if_neg h).trans (hkeep x)⟩
  | remove g id =>
    by_cases h : f = g ∧ c = id.clientId
    · exact .inr ⟨fun s => s.1 ≠ id, fun x => if_pos h⟩
    · exact .inr ⟨fun _ => true, fun x => (if_neg h).trans (hkeep x)⟩

/-- Either nothing comes out of nothing, or an `add` decides, whatever was there before. -/
theorem foldl_onSubscription_none (f : TopicFilter) (c : ClientId) (calls : List Call) :
    calls.foldl (onSubscription f c) none = none ∨
      ∀ x, calls.foldl (onSubscription f c) x = calls.foldl (onSubscription f c) none := by
  induction calls using List.reverseRecOn with
  | nil => exact .inl rfl
  | append_singleton calls y ih =>
    simp only [foldl_append, foldl_cons, foldl_nil]
    rcases onSubscription_cases f c y with ⟨v, hv⟩ | ⟨p, hp⟩
    · exact .inr fun x => by rw [hv, hv]
    · rcases ih with h | h
      · exact .inl (by rw [h, hp]; rfl)
      · exact .inr fun x => by rw [h]

theorem foldl_onSubscription_twice (calls : List Call) (x : Option (Id × SubscriptionOptions)) :
    calls.foldl (onSubscription f c) (calls.foldl (onSubscription f c) x) =
      calls.foldl (onSubscription f c) x := by
  induction calls using List.reverseRecOn with
  | nil => rfl
  | append_singleton calls y ih =>
    simp only [foldl_append, foldl_cons, foldl_nil]
    rcases onSubscription_cases f c y with ⟨v, hv⟩ | ⟨p, hp⟩
    · rw [hv, hv]
    · rw [hp, hp]
      obtain hfilter | hfilter : (calls.foldl (onSubscription f c) x).filter p = none ∨
          (calls.foldl (onSubscription f c) x).filter p = calls.foldl (onSubscription f c) x := by
        rcases calls.foldl (onSubscription f c) x with _ | v
        · exact .inl rfl
        · by_cases hv : p v = true
          · exact .inr (by simp [Option.filter, hv])
          · exact .inl (by simp [Option.filter, hv])
      · rw [hfilter]
        rcases foldl_onSubscription_none f c calls with h | h
        · rw [h]
          rfl
        · rw [← h x, hfilter]
      · rw [hfilter, ih, hfilter]

/-- A subscription that is some calls ahead ends as the others do. -/
theorem subscription_replay {s : DefaultRouter} {pre post : List Call}
    (h : s.subscription f c = (r.run pre).subscription f c) :
    (s.run (pre ++ post)).subscription f c = (r.run (pre ++ post)).subscription f c := by
  rw [subscription_run, subscription_run, h, subscription_run, foldl_append,
    foldl_append, foldl_onSubscription_twice]

/-! ### The relations as a whole -/

theorem Consistent.relations_eq {s : DefaultRouter} (hr : r.Consistent) (hs : s.Consistent)
    (h : ∀ f c, r.subscription f c = s.subscription f c) : r.relations = s.relations := by
  refine Finmap.ext_lookup fun f => ?_
  -- an entry on one side only would have a subscriber on one side only
  have hnone {a b : DefaultRouter} (ha : a.Consistent)
      (hab : ∀ f c, a.subscription f c = b.subscription f c) (hb : b.relations.lookup f = none) :
      a.relations.lookup f = none := by
    rcases hf : a.relations.lookup f with _ | rels
    · rfl
    · obtain ⟨c, v, hv⟩ := Map.exists_lookup_of_ne_empty (ha.nonempty f rels hf)
      have := hab f c
      simp [subscription, hf, hb, hv] at this
  rcases hrf : r.relations.lookup f with _ | rels
  · exact (hnone hs (fun f c => (h f c).symm) hrf).symm
  · rcases hsf : s.relations.lookup f with _ | rels'
    · rw [hnone hr h hsf] at hrf
      cases hrf
    · refine congrArg some (Finmap.ext_lookup fun c => ?_)
      simpa [subscription, hrf, hsf] using h f c

theorem insertRelation_congr {s : DefaultRouter} (h : r.relations = s.relations)
    (hcount : r.relationsCount.count = s.relationsCount.count) (f : TopicFilter) (id : Id)
    (opts : SubscriptionOptions) :
    (r.insertRelation f id opts).relations = (s.insertRelation f id opts).relations ∧
      (r.insertRelation f id opts).relationsCount.count =
        (s.insertRelation f id opts).relationsCount.count := by
  unfold insertRelation
  rw [h]
  refine ⟨rfl, ?_⟩
  dsimp only
  split_ifs
  · rw [Counter.count_inc, Counter.count_inc, hcount]
  · exact hcount

theorem call_congr {s : DefaultRouter} (h : r.relations = s.relations)
    (hcount : r.relationsCount.count = s.relationsCount.count) (x : Call) :
    (r.call x).relations = (s.call x).relations ∧
      (r.call x).relationsCount.count = (s.call x).relationsCount.count := by
  cases x with
  | add f id opts =>
    unfold call add
    dsimp only
    rcases Topic.fromStr f with e | t
    · exact ⟨h, hcount⟩
    · exact insertRelation_congr (r := r.insertTopic t) (s := s.insertTopic t) h hcount f id opts
  | remove f id =>
    have henable : r.removeEnable f id = s.removeEnable f id := by
      unfold removeEnable
      rw [h]
    unfold call remove removeSubscriber
    dsimp only
    rw [henable, h]
    by_cases he : s.removeEnable f id = true
    · simp only [if_pos he]
      rcases Map.isEmpty (((s.relations.lookup f).getD ∅).erase id.clientId) with _ | _
      · exact ⟨rfl, by simp [hcount]⟩
      · rcases Topic.fromStr f with e | t <;>
          simp [removeRelation, removeTopic, hcount]
    · simp only [if_neg he]
      exact ⟨h, hcount⟩

end DefaultRouter

/-! ## The entry of a client -/

namespace Message

variable (tryLockTimeout : TimestampMillis)

def onClient (c : ClientId) (entry : Option ClientStatus) (e : Message × Clock) :
    Option ClientStatus :=
  if e.1.client = some c then e.1.onEntry tryLockTimeout e.2 entry else entry

/-- The message is not turned away because of what is in the entry: a lock is taken, a session that
connects is accepted, and a session that ends finds no other one in its place. -/
def Accepted (now : Clock) : Message → Option ClientStatus → Prop
  | handshakeTryLock id, entry => (ClientStatus.tryLock tryLockTimeout now id entry).1 = true
  | connected id, entry => (ClientStatus.connected now id entry).1 = true
  | sessionTerminated id, entry => ∀ status ∈ entry, status.id = id
  | _, _ => True

end Message

namespace ClientStatus

variable {tryLockTimeout : TimestampMillis} {now : Clock} {id : Id} {x : Option ClientStatus}

theorem tryLock_of_true (h : (tryLock tryLockTimeout now id x).1 = true) :
    (tryLock tryLockTimeout now id x).2 = new now id false true := by
  rcases x with _ | s
  · rfl
  · unfold tryLock at h ⊢
    dsimp only at h ⊢
    split_ifs at h ⊢
    · rfl

theorem tryLock_of_false (h : (tryLock tryLockTimeout now id x).1 = false) :
    some (tryLock tryLockTimeout now id x).2 = x := by
  rcases x with _ | s
  · cases h
  · unfold tryLock at h ⊢
    dsimp only at h ⊢
    split_ifs at h ⊢
    · rfl

theorem connected_of_true (h : (connected now id x).1 = true) :
    (connected now id x).2 =
      { id, online := true, handshaking := false
        handshakDuration := (x.map handshakDuration).getD now.record } := by
  rcases x with _ | s
  · rfl
  · unfold connected at h ⊢
    dsimp only at h ⊢
    split_ifs at h ⊢
    · rfl

theorem connected_of_false (h : (connected now id x).1 = false) :
    some (connected now id x).2 = x ∧ ∀ s ∈ x, s.id ≠ id := by
  rcases x with _ | s
  · cases h
  · unfold connected at h ⊢
    dsimp only at h ⊢
    split_ifs at h ⊢ with hid
    · exact ⟨rfl, fun t ht => by cases ht; exact hid.1⟩

end ClientStatus

/-- How the entry in the replay (`w`) stands to the one at the same message of the first run (`v`), if
the replay starts from `y`. -/
inductive Replays (y : Option ClientStatus) : Option ClientStatus → Option ClientStatus → Prop
  /-- They are the same. -/
  | same (v : Option ClientStatus) : Replays y v v
  /-- Nothing has been accepted yet. -/
  | fresh (v : Option ClientStatus) : Replays y v y
  /-- Nothing has been accepted yet, but the session has been disconnected. -/
  | offline {v : Option ClientStatus} {s : ClientStatus} (hy : y = some s)
      (hv : ∀ t ∈ v, t.id = s.id → t.online = false) :
      Replays y v (some { s with online := false })
  /-- A session has been accepted, in an entry that is older or newer. -/
  | connected {v : ClientStatus} {time : TimestampMillis} (hlock : v.handshaking = false)
      (hy : ∀ s ∈ y, time = s.handshakDuration) :
      Replays y (some v) (some { v with handshakDuration := time })

namespace Replays

variable {tryLockTimeout : TimestampMillis} {now : Clock} {y v w : Option ClientStatus}

theorem eq (h : Replays y y w) : w = y := by
  cases h with
  | same | fresh => rfl
  | @offline _ s hy hv =>
    subst hy
    have hs : s.online = false := hv s rfl rfl
    rw [← hs]
  | @connected v time hlock hy => rw [hy v rfl]

open ClientStatus in
theorem tryLock (h : Replays y v w) (id : Id)
    (hv : (ClientStatus.tryLock tryLockTimeout now id v).1 = true) :
    Replays y (some (ClientStatus.tryLock tryLockTimeout now id v).2)
      (some (ClientStatus.tryLock tryLockTimeout now id w).2) := by
  rcases hw : (ClientStatus.tryLock tryLockTimeout now id w).1 with _ | _
  · -- refused in the replay, which stays where it is
    rw [tryLock_of_true hv, tryLock_of_false hw]
    cases h with
    | same => rw [hv] at hw; cases hw
    | fresh => exact .fresh _
    | offline hy => exact .offline hy fun t ht _ => by cases ht; rfl
    | @connected v time hlock hy =>
      simp [ClientStatus.tryLock, isHandshaking, hlock] at hw
  · rw [tryLock_of_true hv, tryLock_of_true hw]
    exact .same _

open ClientStatus in
theorem connect (h : Replays y v w) (id : Id)
    (hv : (ClientStatus.connected now id v).1 = true) :
    Replays y (some (ClientStatus.connected now id v).2)
      (some (ClientStatus.connected now id w).2) := by
  rcases hw : (ClientStatus.connected now id w).1 with _ | _
  · -- refused in the replay, because of a session that is not this one
    obtain ⟨hkeep, hid⟩ := connected_of_false hw
    rw [connected_of_true hv, hkeep]
    cases h with
    | same => rw [hv] at hw; cases hw
    | fresh => exact .fresh _
    | @offline _ s hy =>
      refine .offline hy fun t ht hs => ?_
      cases ht
      exact absurd hs.symm (hid { s with online := false } rfl)
    | @connected v time hlock hy =>
      -- the entries have the same id, so the answers are the same
      simp only [ClientStatus.connected] at hv hw
      split_ifs at hv hw
  · cases h with
    | same => exact .same _
    | fresh =>
      rw [connected_of_true hv, connected_of_true hw]
      exact .connected rfl fun s hs => by rw [hs]; rfl
    | offline hy =>
      rw [connected_of_true hv, connected_of_true hw]
      refine .connected rfl fun s hs => ?_
      rw [hy] at hs
      cases hs
      rfl
    | connected hlock hy =>
      rw [connected_of_true hv, connected_of_true hw]
      exact .connected rfl hy

theorem disconnect (h : Replays y v w) (id : Id) :
    Replays y (v.map (·.disconnected id)) (w.map (·.disconnected id)) := by
  -- in the first run the session is disconnected as well, or it is not this session
  have hoffline (s : ClientStatus) (hs : s.id = id) :
      ∀ t ∈ v.map (·.disconnected id), t.id = s.id → t.online = false := by
    intro t ht
    obtain ⟨t, -, rfl⟩ := Option.mem_map.1 ht
    unfold ClientStatus.disconnected
    split_ifs with hid
    · exact fun h => absurd (h.trans hs) hid
    · exact fun _ => rfl
  cases h with
  | same => exact .same _
  | fresh =>
    rcases y with _ | s
    · exact .fresh _
    · by_cases hs : s.id = id
      · have hw : s.disconnected id = { s with online := false } := if_neg (not_not.2 hs)
        rw [Option.map_some, hw]
        exact .offline rfl (hoffline s hs)
      · have hw : s.disconnected id = s := if_pos hs
        rw [Option.map_some, hw]
        exact .fresh _
  | @offline _ s hy hv =>
    have hw : ({ s with online := false } : ClientStatus).disconnected id =
        { s with online := false } := by
      unfold ClientStatus.disconnected
      split_ifs <;> rfl
    rw [Option.map_some, hw]
    refine .offline hy fun t ht hid => ?_
    obtain ⟨t, ht', rfl⟩ := Option.mem_map.1 ht
    unfold ClientStatus.disconnected at hid ⊢
    split_ifs at hid ⊢
    · exact hv t ht' hid
    · rfl
  | @connected v time hlock hy =>
    simp only [Option.map_some, ClientStatus.disconnected]
    split_ifs
    · exact .connected hlock hy
    · exact .connected (v := { v with online := false }) hlock hy

theorem terminate (h : Replays y v w) (id : Id) (hv : ∀ status ∈ v, status.id = id) :
    Replays y (v.filter (·.id ≠ id)) (w.filter (·.id ≠ id)) := by
  have hnone : v.filter (·.id ≠ id) = none := by
    rw [Option.filter_eq_none_iff]
    intro status hstatus
    simpa using hv status hstatus
  rw [hnone]
  cases h with
  | same => rw [hnone]; exact .same _
  | fresh =>
    rcases y with _ | s
    · exact .same _
    · by_cases hs : s.id = id
      · simpa [Option.filter, hs] using Replays.same none
      · simpa [Option.filter, hs] using Replays.fresh none
  | @offline _ s hy =>
    by_cases hs : s.id = id
    · simpa [Option.filter, hs] using Replays.same none
    · simpa [Option.filter, hs] using
        Replays.offline (v := none) hy nofun
  | @connected v time hlock hy =>
    have hid : v.id = id := hv v rfl
    simpa [Option.filter, hid] using Replays.same none

theorem step (c : ClientId) (e : Message × Clock)
    (hv : e.1.client = some c → e.1.Accepted tryLockTimeout e.2 v) (h : Replays y v w) :
    Replays y (Message.onClient tryLockTimeout c v e) (Message.onClient tryLockTimeout c w e) := by
  unfold Message.onClient
  split_ifs with hc
  · have hv := hv hc
    cases he : e.1 with
    | handshakeTryLock id => rw [he] at hv; exact h.tryLock id hv
    | connected id => rw [he] at hv; exact h.connect id hv
    | disconnected id => exact h.disconnect id
    | sessionTerminated id => rw [he] at hv; exact h.terminate id hv
    | _ => exact h
  · exact h

end Replays

namespace ClusterRouter

variable {tryLockTimeout : TimestampMillis} {r s : ClusterRouter}

theorem inner_run (tryLockTimeout : TimestampMillis) (r : ClusterRouter)
    (log : List (Message × Clock)) :
    (r.run tryLockTimeout log).2.inner = r.inner.run (log.filterMap fun e => e.1.call) := by
  induction log generalizing r with
  | nil => rfl
  | cons e log ih =>
    refine (ih (r.apply tryLockTimeout e.2 e.1).2).trans ?_
    rw [inner_apply, filterMap_cons]
    cases e.1.call <;> rfl

theorem lookup_run (tryLockTimeout : TimestampMillis) (r : ClusterRouter)
    (log : List (Message × Clock)) (c : ClientId) :
    (r.run tryLockTimeout log).2.clientStates.lookup c =
      log.foldl (Message.onClient tryLockTimeout c) (r.clientStates.lookup c) := by
  induction log generalizing r with
  | nil => rfl
  | cons e log ih =>
    refine (ih (r.apply tryLockTimeout e.2 e.1).2).trans ?_
    rw [lookup_apply]
    rfl

def Accepts (tryLockTimeout : TimestampMillis) (r : ClusterRouter) (e : Message × Clock) : Prop :=
  ∀ c, e.1.client = some c → e.1.Accepted tryLockTimeout e.2 (r.clientStates.lookup c)

def applied (tryLockTimeout : TimestampMillis) (r : ClusterRouter) (e : Message × Clock) :
    ClusterRouter :=
  (r.apply tryLockTimeout e.2 e.1).2

theorem run_eq_foldl (tryLockTimeout : TimestampMillis) (r : ClusterRouter)
    (log : List (Message × Clock)) :
    (r.run tryLockTimeout log).2 = log.foldl (applied tryLockTimeout) r := by
  induction log generalizing r with
  | nil => rfl
  | cons e log ih => exact ih _

theorem run_append (tryLockTimeout : TimestampMillis) (r : ClusterRouter)
    (log log' : List (Message × Clock)) :
    (r.run tryLockTimeout (log ++ log')).2 =
      ((r.run tryLockTimeout log).2.run tryLockTimeout log').2 := by
  rw [run_eq_foldl, run_eq_foldl, run_eq_foldl, foldl_append]

theorem along_onClient {log : List (Message × Clock)}
    (h : Along (applied tryLockTimeout) (Accepts tryLockTimeout) r log) (c : ClientId) :
    Along (Message.onClient tryLockTimeout c)
      (fun v e => e.1.client = some c → e.1.Accepted tryLockTimeout e.2 v)
      (r.clientStates.lookup c) log := by
  induction log generalizing r with
  | nil => trivial
  | cons e log ih =>
    refine ⟨h.1 c, ?_⟩
    have := ih h.2
    rwa [applied, lookup_apply] at this

/-- An entry that is some messages ahead ends as it did the first time. -/
theorem lookup_replay {pre post : List (Message × Clock)} {c : ClientId}
    (haccept : Along (applied tryLockTimeout) (Accepts tryLockTimeout) r (pre ++ post))
    (h : s.clientStates.lookup c = (r.run tryLockTimeout pre).2.clientStates.lookup c) :
    (s.run tryLockTimeout (pre ++ post)).2.clientStates.lookup c =
      (r.run tryLockTimeout (pre ++ post)).2.clientStates.lookup c := by
  have hpre := along_onClient (along_append.1 haccept).1 c
  have htwice := hpre.relates (R := Replays (pre.foldl (Message.onClient tryLockTimeout c)
    (r.clientStates.lookup c))) (fun v w e hv h => h.step c e hv) (.fresh _)
  rw [lookup_run, lookup_run, h, lookup_run, foldl_append, foldl_append, htwice.eq]

/-! ## The whole state -/

/-- The two routers hold the same subscriptions and the same client states. -/
structure Agree (r s : ClusterRouter) : Prop where
  relations : r.inner.relations = s.inner.relations
  relationsCount : r.inner.relationsCount.count = s.inner.relationsCount.count
  clientStates : r.clientStates = s.clientStates

theorem Agree.trans {t : ClusterRouter} (h : Agree r s) (h' : Agree s t) : Agree r t :=
  ⟨h.relations.trans h'.relations, h.relationsCount.trans h'.relationsCount,
    h.clientStates.trans h'.clientStates⟩

theorem Agree.run (h : Agree r s) (log : List (Message × Clock)) :
    Agree (r.run tryLockTimeout log).2 (s.run tryLockTimeout log).2 := by
  induction log generalizing r s with
  | nil => exact h
  | cons e log ih =>
    refine ih (r := (r.apply tryLockTimeout e.2 e.1).2) (s := (s.apply tryLockTimeout e.2 e.1).2) ?_
    have hinner : (r.apply tryLockTimeout e.2 e.1).2.inner.relations =
          (s.apply tryLockTimeout e.2 e.1).2.inner.relations ∧
        (r.apply tryLockTimeout e.2 e.1).2.inner.relationsCount.count =
          (s.apply tryLockTimeout e.2 e.1).2.inner.relationsCount.count := by
      rw [inner_apply, inner_apply]
      cases e.1.call with
      | none => exact ⟨h.relations, h.relationsCount⟩
      | some x => exact DefaultRouter.call_congr h.relations h.relationsCount x
    refine ⟨hinner.1, hinner.2, Finmap.ext_lookup fun c => ?_⟩
    rw [lookup_apply, lookup_apply, h.clientStates]

/-- A log is replayed on a state whose cells are each some messages ahead. -/
theorem agree_replay {log : List (Message × Clock)} (hr : r.inner.Consistent)
    (hs : s.inner.Consistent)
    (haccept : Along (applied tryLockTimeout) (Accepts tryLockTimeout) r log)
    (hsub : ∀ f c, ∃ pre, pre <+: log ∧
      s.inner.subscription f c = (r.run tryLockTimeout pre).2.inner.subscription f c)
    (hclient : ∀ c, ∃ pre, pre <+: log ∧
      s.clientStates.lookup c = (r.run tryLockTimeout pre).2.clientStates.lookup c) :
    Agree (s.run tryLockTimeout log).2 (r.run tryLockTimeout log).2 := by
  have hcr : (r.run tryLockTimeout log).2.inner.Consistent := consistent_run tryLockTimeout r log hr
  have hcs : (s.run tryLockTimeout log).2.inner.Consistent := consistent_run tryLockTimeout s log hs
  have hrelations : (s.run tryLockTimeout log).2.inner.relations =
      (r.run tryLockTimeout log).2.inner.relations := by
    refine hcs.relations_eq hcr fun f c => ?_
    obtain ⟨pre, ⟨post, rfl⟩, h⟩ := hsub f c
    rw [inner_run] at h
    rw [inner_run, inner_run, filterMap_append]
    exact DefaultRouter.subscription_replay h
  refine ⟨hrelations, ?_, Finmap.ext_lookup fun c => ?_⟩
  · rw [hcs.relationsCount, hcr.relationsCount, hrelations]
  · obtain ⟨pre, ⟨post, rfl⟩, h⟩ := hclient c
    exact lookup_replay haccept h

end ClusterRouter

end FerroMq
