import FerroMq.Lib.Newest
import FerroMq.Retain.Pages

/-!
# Merging the retained messages of the peers

`sync_retains_from_peers` starts a task for each peer, which gets a message stored here, compares the times of
creation and sets the peer's if it is newer, with nothing locked in between.  As long as no task goes by an
outdated reading, the newest message of each topic is kept (`newest_kept`).
-/

namespace FerroMq

open Lib DefaultRetainStorage List

namespace RetainSync

/-! ## The tasks -/

inductive Phase
  | ready
  | got (current : List (String × Retain))
  | decided (current : List (String × Retain)) (shouldUpdate : Bool)

/-- The task of a peer, with the items still to come.  The peers do not change, so that the items of all
pages are there from the start. -/
structure Task where
  items : List PageItem
  phase : Phase

structure State (ι : Type) where
  store : DefaultRetainStorage
  tasks : ι → Task

def chunk : ℕ := 5000

def createTime (retain : Retain) : TimestampMillis := retain.publish.createTime.getD 0

def shouldUpdate (current : List (String × Retain)) (retain : Retain) : Bool :=
  match current.head? with
  | some (_, existing) => decide (createTime retain > createTime existing)
  | none => true

variable {ι : Type} [DecidableEq ι] (cfg : PluginConfig)

def act (s : State ι) (a : ι × Instant) : State ι :=
  match (s.tasks a.1).items, (s.tasks a.1).phase with
  | [], _ => s
  | (topic, retain, expiry) :: rest, .ready =>
    { s with
      tasks := Function.update s.tasks a.1 ⟨(topic, retain, expiry) :: rest,
        .got ((s.store.getMessage a.2 topic).toOption.getD [])⟩ }
  | (topic, retain, expiry) :: rest, .got current =>
    { s with
      tasks := Function.update s.tasks a.1 ⟨(topic, retain, expiry) :: rest,
        .decided current (shouldUpdate current retain)⟩ }
  | (topic, retain, expiry) :: rest, .decided _ update =>
    { store := if update then RamRetainer.afterSet cfg s.store a.2 topic retain expiry else s.store
      tasks := Function.update s.tasks a.1 ⟨rest, .ready⟩ }

/-- The tasks have just been started: the peers are storages, and the pages of each were read completely
while none of its messages expired.  No message that is stored here expires at one of the times in `T`. -/
structure Start (T : Set Instant) (peers : ι → DefaultRetainStorage)
    (clock : ι → ℕ → Instant × Instant) (s : State ι) : Prop where
  reachable : ∀ i, (peers i).Reachable
  steady : ∀ i, (peers i).Steady (clock i)
  copied : ∀ i, ∃ fuel, (peers i).copy (clock i) chunk fuel = some (s.tasks i).items
  ready : ∀ i, (s.tasks i).phase = .ready
  stays : ∀ ks tv, s.store.messages.get ks = some tv → ∀ now ∈ T, ∀ now' ∈ T,
    tv.isExpired now = tv.isExpired now'

/-- A step at one of the times `T`.  If it sets a message, what its task has read is still what is stored,
the limits are not reached, and the message does not expire. -/
def Ok (T : Set Instant) (s : State ι) (a : ι × Instant) : Prop :=
  a.2 ∈ T ∧ ∀ topic retain expiry rest current,
    s.tasks a.1 = ⟨(topic, retain, expiry) :: rest, .decided current true⟩ →
      s.store.getMessage a.2 topic = .ok current ∧
      (retain.publish.inner.payload.length ≤ cfg.maxPayloadSize ∧
        ¬ (cfg.maxRetainedMessages > 0 ∧ s.store.count ≥ cfg.maxRetainedMessages)) ∧
      ∀ now ∈ T, (TimedValue.new retain (RamRetainer.expiryInterval cfg expiry) a.2).isExpired now = false

/-- The messages of a topic that are known here or to a peer. -/
def Known (now : Instant) (peers : ι → DefaultRetainStorage) (clock : ι → ℕ → Instant × Instant)
    (s : State ι) (t : Topic) (retain : Retain) : Prop :=
  (∃ tv, s.store.Live now t tv ∧ tv.value = retain) ∨
    ∃ i tv, (peers i).Live (clock i 0).1 t tv ∧ tv.value = retain

/-! ## The model of the tasks -/

def view (now : Instant) (store : DefaultRetainStorage) (t : Topic) : Option Retain :=
  (store.messages.get t.levels).bind fun tv => if tv.isExpired now then none else some tv.value

def offer (x : PageItem) : Topic × Retain := ((Topic.fromStr x.1).toOption.getD ⟨[]⟩, x.2.1)

def readMessage (current : List (String × Retain)) : Option Retain := current.head?.map Prod.snd

def Phase.abs : Phase → Newest.Phase Retain
  | .ready => .ready
  | .got current => .got (readMessage current)
  | .decided current update => .decided (readMessage current) update

def Task.abs (t : Task) : Newest.Task Topic Retain := ⟨t.items.map offer, t.phase.abs⟩

def State.abs (now : Instant) (s : State ι) : Newest.State ι Topic Retain :=
  ⟨view now s.store, fun i => (s.tasks i).abs⟩

/-- What holds of the store and the items at all times. -/
structure Good (T : Set Instant) (s : State ι) : Prop where
  stays : ∀ ks tv, s.store.messages.get ks = some tv → ∀ now ∈ T, ∀ now' ∈ T,
    tv.isExpired now = tv.isExpired now'
  items : ∀ i, ∀ x ∈ (s.tasks i).items, ∃ t, Topic.fromStr x.1 = .ok t ∧ t.wildcardFree = true ∧
    x.2.1.publish.inner.payload ≠ []

section

omit [DecidableEq ι]

variable {T : Set Instant} {s : State ι} {now now₀ : Instant}

theorem view_eq (h : Good T s) (hnow : now ∈ T) (hnow₀ : now₀ ∈ T) (t : Topic) :
    view now s.store t = view now₀ s.store t := by
  rw [view, view]
  cases hget : s.store.messages.get t.levels with
  | none => rfl
  | some tv => rw [Option.bind_some, Option.bind_some, h.stays _ tv hget now hnow now₀ hnow₀]

variable {topic : String} {t : Topic}

theorem getMessage_eq (store : DefaultRetainStorage) (now : Instant)
    (ht : Topic.fromStr topic = .ok t) (hplain : t.wildcardFree = true) :
    store.getMessage now topic = .ok ((view now store t).map fun r => (t.toStr, r)).toList := by
  have hlevels : ∀ l ∈ t.levels, l.isWildcard = false :=
    TopicTree.wildcardFree_levels ⟨t, ⟨topic, ht⟩, hplain⟩
  rw [getMessage, ht]
  refine congrArg Except.ok ?_
  rw [RetainTree.matches, RetainTree.collect_plain hlevels, nil_append, view]
  cases store.messages.get t.levels with
  | none => rfl
  | some tv => cases he : tv.isExpired now <;> simp [RetainTree.addToOut, he]

theorem readMessage_getMessage (store : DefaultRetainStorage) (now : Instant)
    (ht : Topic.fromStr topic = .ok t) (hplain : t.wildcardFree = true) :
    readMessage ((store.getMessage now topic).toOption.getD []) = view now store t := by
  rw [getMessage_eq store now ht hplain]
  cases view now store t <;> rfl

theorem shouldUpdate_eq (current : List (String × Retain)) (retain : Retain) :
    shouldUpdate current retain = Newest.shouldUpdate createTime (readMessage current) retain := by
  cases current <;> rfl

theorem fresh_of_abs {i : ι} {t : Newest.Task Topic Retain} (h : (s.abs now₀).tasks i = t)
    (hphase : ∀ current, t.phase ≠ .decided current true) : Newest.Fresh (s.abs now₀) i := by
  intro x m rest current hdec
  rw [h] at hdec
  exact absurd (congrArg Newest.Task.phase hdec) (hphase current)

theorem get_afterSet {cfg : PluginConfig} {store : DefaultRetainStorage}
    (ht : Topic.fromStr topic = .ok t) {retain : Retain} {expiry : Option Nanos}
    (hpayload : retain.publish.inner.payload ≠ [])
    (hsize : retain.publish.inner.payload.length ≤ cfg.maxPayloadSize)
    (hroom : ¬ (cfg.maxRetainedMessages > 0 ∧ store.count ≥ cfg.maxRetainedMessages)) (ks : List Level) :
    (RamRetainer.afterSet cfg store now topic retain expiry).messages.get ks =
      if ks = t.levels then some (.new retain (RamRetainer.expiryInterval cfg expiry) now)
      else store.messages.get ks := by
  obtain ⟨s', hset, -⟩ := store.lookup_setWithTimeout now ht retain (RamRetainer.expiryInterval cfg expiry)
  rw [RamRetainer.afterSet, RamRetainer.set, if_neg (not_lt.2 hsize), if_neg hroom, hset]
  refine (get_setWithTimeout ht hset ks).trans ?_
  rw [if_neg hpayload]

theorem view_update {store store' : DefaultRetainStorage} {tv : TimedValue Retain}
    (hget : ∀ ks, store'.messages.get ks = if ks = t.levels then some tv else store.messages.get ks)
    (hlive : tv.isExpired now = false) :
    view now store' = Function.update (view now store) t (some tv.value) := by
  funext t'
  by_cases heq : t' = t
  · subst heq
    rw [view, hget, if_pos rfl, Option.bind_some, hlive, Function.update_self]
    rfl
  · have hlevels : t'.levels ≠ t.levels := fun h => heq (congrArg Topic.mk h)
    rw [Function.update_of_ne heq, view, hget, if_neg hlevels, view]

end

section

variable {cfg} {T : Set Instant} {s : State ι} {now₀ : Instant}

theorem abs_update (store : DefaultRetainStorage) (tasks : ι → Task) (i : ι) (t : Task) :
    State.abs now₀ ⟨store, Function.update tasks i t⟩ =
      ⟨view now₀ store, Function.update (fun i => (tasks i).abs) i t.abs⟩ := by
  refine congrArg (Newest.State.mk (view now₀ store)) (funext fun j => ?_)
  exact Function.apply_update (fun _ => Task.abs) tasks i t j

theorem Good.update (h : Good T s) {store : DefaultRetainStorage} {i : ι} {t : Task}
    (hitems : ∀ x ∈ t.items, x ∈ (s.tasks i).items)
    (hstays : ∀ ks tv, store.messages.get ks = some tv → ∀ now ∈ T, ∀ now' ∈ T,
      tv.isExpired now = tv.isExpired now') : Good T ⟨store, Function.update s.tasks i t⟩ := by
  refine ⟨hstays, fun j x hx => ?_⟩
  dsimp only at hx
  by_cases hj : j = i
  · subst hj
    rw [Function.update_self] at hx
    exact h.items j x (hitems x hx)
  · rw [Function.update_of_ne hj] at hx
    exact h.items j x hx

section

variable {i : ι} {now : Instant} {topic : String} {retain : Retain} {expiry : Option Nanos}
  {rest : List PageItem} {current : List (String × Retain)}

theorem act_nil {phase : Phase} (h : s.tasks i = ⟨[], phase⟩) : act cfg s (i, now) = s := by
  simp only [act, h]

theorem act_ready (h : s.tasks i = ⟨(topic, retain, expiry) :: rest, .ready⟩) :
    act cfg s (i, now) = ⟨s.store, Function.update s.tasks i ⟨(topic, retain, expiry) :: rest,
      .got ((s.store.getMessage now topic).toOption.getD [])⟩⟩ := by
  simp only [act, h]

theorem act_got (h : s.tasks i = ⟨(topic, retain, expiry) :: rest, .got current⟩) :
    act cfg s (i, now) = ⟨s.store, Function.update s.tasks i ⟨(topic, retain, expiry) :: rest,
      .decided current (shouldUpdate current retain)⟩⟩ := by
  simp only [act, h]

theorem act_decided {update : Bool}
    (h : s.tasks i = ⟨(topic, retain, expiry) :: rest, .decided current update⟩) :
    act cfg s (i, now) =
      ⟨if update then RamRetainer.afterSet cfg s.store now topic retain expiry else s.store,
        Function.update s.tasks i ⟨rest, .ready⟩⟩ := by
  simp only [act, h]

end

theorem abs_act (h : Good T s) (hnow₀ : now₀ ∈ T) {a : ι × Instant} (hok : Ok cfg T s a) :
    Newest.Fresh (s.abs now₀) a.1 ∧ Good T (act cfg s a) ∧
      (act cfg s a).abs now₀ = Newest.step createTime (s.abs now₀) a.1 := by
  obtain ⟨i, now⟩ := a
  obtain ⟨hnow, hset⟩ := hok
  dsimp only at hnow hset ⊢
  have habs : (s.abs now₀).tasks i = (s.tasks i).abs := rfl
  rcases ht : s.tasks i with ⟨_ | ⟨⟨topic, retain, expiry⟩, rest⟩, phase⟩
  · rw [ht] at habs
    rw [act_nil ht, Newest.step_nil habs]
    refine ⟨?_, h, rfl⟩
    intro x m rest current hdec
    exact nomatch congrArg Newest.Task.offers (habs.symm.trans hdec)
  obtain ⟨t, hparse, hplain, hpayload⟩ :=
    h.items i (topic, retain, expiry) (by rw [ht]; exact mem_cons_self)
  have hoffer : offer (topic, retain, expiry) = (t, retain) := by
    rw [offer, hparse]
    rfl
  have hkeep : ∀ x ∈ (topic, retain, expiry) :: rest, x ∈ (s.tasks i).items := by
    rw [ht]
    exact fun x hx => hx
  rw [ht, Task.abs, map_cons, hoffer] at habs
  cases phase with
  | ready =>
    refine ⟨fresh_of_abs habs fun _ => nofun, ?_, ?_⟩
    · rw [act_ready ht]
      exact h.update hkeep h.stays
    · rw [act_ready ht, Newest.step_ready habs, abs_update, Task.abs, map_cons, hoffer, Phase.abs,
        readMessage_getMessage s.store now hparse hplain, view_eq h hnow hnow₀]
      rfl
  | got current =>
    refine ⟨fresh_of_abs habs fun _ => nofun, ?_, ?_⟩
    · rw [act_got ht]
      exact h.update hkeep h.stays
    · rw [act_got ht, Newest.step_got habs, abs_update, Task.abs, map_cons, hoffer, Phase.abs,
        shouldUpdate_eq]
      rfl
  | decided current update =>
    have hrest : ∀ x ∈ rest, x ∈ (s.tasks i).items := fun x hx => hkeep x (mem_cons_of_mem _ hx)
    rw [act_decided ht, Newest.step_decided habs, abs_update]
    cases update with
    | false => exact ⟨fresh_of_abs habs fun _ => nofun, h.update hrest h.stays, rfl⟩
    | true =>
      obtain ⟨hread, ⟨hsize, hroom⟩, hlive⟩ := hset topic retain expiry rest current ht
      have hget : ∀ ks, (RamRetainer.afterSet cfg s.store now topic retain expiry).messages.get ks =
          if ks = t.levels then some (.new retain (RamRetainer.expiryInterval cfg expiry) now)
          else s.store.messages.get ks := get_afterSet hparse hpayload hsize hroom
      refine ⟨?_, h.update hrest ?_, ?_⟩
      · intro x m rest' current' hdec
        obtain ⟨hoffers, hphase⟩ := Newest.Task.mk.inj (habs.symm.trans hdec)
        obtain ⟨hx, -⟩ := List.cons.inj hoffers
        obtain ⟨rfl, -⟩ := Prod.mk.inj hx
        obtain ⟨hcurrent, -⟩ := Newest.Phase.decided.inj hphase
        change view now₀ s.store t = current'
        rw [← hcurrent, ← view_eq h hnow hnow₀, ← readMessage_getMessage s.store now hparse hplain]
        exact congrArg (fun x => readMessage (x.toOption.getD [])) hread
      · intro ks tv htv now₁ hnow₁ now₂ hnow₂
        rw [if_pos rfl, hget] at htv
        split_ifs at htv
        · cases htv
          rw [hlive now₁ hnow₁, hlive now₂ hnow₂]
        · exact h.stays ks tv htv now₁ hnow₁ now₂ hnow₂
      · rw [if_pos rfl, if_pos rfl, view_update hget (hlive now₀ hnow₀)]
        rfl

end

/-! ## The newest message -/

section

variable {T : Set Instant} {peers : ι → DefaultRetainStorage} {clock : ι → ℕ → Instant × Instant}
  {s : State ι}

section

omit [DecidableEq ι]

variable {t : Topic} {retain : Retain}

theorem view_eq_some_iff {now : Instant} {store : DefaultRetainStorage} :
    view now store t = some retain ↔ ∃ tv, store.Live now t tv ∧ tv.value = retain := by
  rw [view, Option.bind_eq_some_iff]
  refine exists_congr fun tv => ?_
  rw [Live, and_assoc]
  refine and_congr_right fun _ => ?_
  cases tv.isExpired now <;> simp

theorem fromStr_toStr (h : t.Parsed) : Topic.fromStr t.toStr = .ok t := by
  obtain ⟨str, hstr⟩ := h
  rwa [Topic.toStr_fromStr hstr]

theorem Start.copied_items (h : Start T peers clock s) {i : ι}
    (hvisible : ∀ t tv, (peers i).Live (clock i 0).1 t tv → ¬ (peers i).Hidden t) :
    Copied (peers i) (clock i) (s.tasks i).items := by
  have hcons := (h.reachable i).consistent
  obtain ⟨fuel, hfuel⟩ := h.copied i
  obtain ⟨out, ⟨n, hout⟩, hall⟩ := exists_copy hcons (h.steady i) (show 1 ≤ chunk by decide)
  have hmore := fetchPages_mono hfuel (Nat.le_max_left fuel n)
  obtain rfl := Option.some.inj ((hout _ (Nat.le_max_right fuel n)).symm.trans hmore)
  exact copied_of_forall_visible hcons hall hvisible

theorem Start.mem_offers_iff (h : Start T peers clock s) {i : ι}
    (hvisible : ∀ t tv, (peers i).Live (clock i 0).1 t tv → ¬ (peers i).Hidden t) :
    (t, retain) ∈ (s.tasks i).items.map offer ↔
      ∃ tv, (peers i).Live (clock i 0).1 t tv ∧ tv.value = retain := by
  have hcopied := h.copied_items hvisible
  have hparsed : ∀ {t tv}, (peers i).Live (clock i 0).1 t tv → Topic.fromStr t.toStr = .ok t :=
    fun hlive => fromStr_toStr ((h.reachable i).consistent.parsed_of_live hlive)
  rw [mem_map]
  constructor
  · rintro ⟨x, hx, heq⟩
    obtain ⟨t', tv, j, hlive, rfl⟩ := hcopied.sound x hx
    rw [offer, hparsed hlive] at heq
    obtain ⟨rfl, rfl⟩ := Prod.mk.inj heq
    exact ⟨tv, hlive, rfl⟩
  · rintro ⟨tv, hlive, rfl⟩
    obtain ⟨j, hmem⟩ := hcopied.complete t tv hlive
    refine ⟨_, hmem, ?_⟩
    rw [offer, hparsed hlive]
    rfl

theorem Start.good (h : Start T peers clock s)
    (hvisible : ∀ i t tv, (peers i).Live (clock i 0).1 t tv →
      ¬ (peers i).Hidden t ∧ t.wildcardFree = true) : Good T s := by
  refine ⟨h.stays, fun i x hx => ?_⟩
  have hcopied := h.copied_items fun t tv hlive => (hvisible i t tv hlive).1
  obtain ⟨t, tv, j, hlive, rfl⟩ := hcopied.sound x hx
  exact ⟨t, fromStr_toStr ((h.reachable i).consistent.parsed_of_live hlive), (hvisible i t tv hlive).2,
    (h.reachable i).payload_ne_nil _ tv hlive.1⟩

theorem known_abs_iff (h : Start T peers clock s)
    (hvisible : ∀ i t tv, (peers i).Live (clock i 0).1 t tv → ¬ (peers i).Hidden t) {now : Instant} :
    Newest.Known (s.abs now) t retain ↔ Known now peers clock s t retain :=
  or_congr view_eq_some_iff (exists_congr fun i => h.mem_offers_iff (hvisible i))

end

end

/-! ## Peers with one message at the topic `a` -/

def atA (createTime : ℤ) : Retain := .plain "a" [120] (some createTime)

def peersAtA (createTime : ι → ℤ) (i : ι) : DefaultRetainStorage :=
  storedAt "a" (.normal "a") (some (createTime i))

def startAtA (createTime : ι → ℤ) : State ι where
  store := .new
  tasks i := ⟨[("a", atA (createTime i), none)], .ready⟩

def noLimits : PluginConfig where
  maxRetainedMessages := 0
  maxPayloadSize := 1024
  retainedMessageTtl := none

section

omit [DecidableEq ι]

theorem start_startAtA (createTime : ι → ℤ) :
    Start {0} (peersAtA createTime) (fun _ _ => (0, 0)) (startAtA createTime) where
  reachable i := .set 0 "a" (atA (createTime i)) none .new rfl
  steady i _ _ _ _ := ⟨rfl, rfl⟩
  copied i := by
    have hreach : (peersAtA createTime i).Reachable := .set 0 "a" (atA (createTime i)) none .new rfl
    have hsteady : (peersAtA createTime i).Steady fun _ => (0, 0) := fun _ _ _ _ => ⟨rfl, rfl⟩
    obtain ⟨out, ⟨n, hout⟩, hall⟩ := exists_copy hreach.consistent hsteady (show 1 ≤ chunk by decide)
    have hcopied := copied_of_forall_visible hreach.consistent hall fun t tv hlive => by
      obtain ⟨rfl, -⟩ := live_storedAt_iff.1 hlive
      exact not_hidden_storedAt (show Level.normal "a" ≠ .multiWildcard from nofun) rfl
    have hitem : ∀ x ∈ out, x = ("a", atA (createTime i), none) := by
      intro x hx
      obtain ⟨t, tv, j, hlive, rfl⟩ := hcopied.sound x hx
      obtain ⟨rfl, rfl⟩ := live_storedAt_iff.1 hlive
      rfl
    obtain ⟨j, hmem⟩ := hcopied.complete _ _ (live_storedAt_iff.2 ⟨rfl, rfl⟩)
    have hout' : out = [("a", atA (createTime i), none)] := by
      match out, hitem, hmem, hcopied.once with
      | [x], hitem, _, _ => rw [hitem x mem_cons_self]
      | x :: y :: out, hitem, _, hnodup =>
        have hx := hitem x mem_cons_self
        have hy := hitem y (mem_cons_of_mem _ mem_cons_self)
        rw [hx, hy] at hnodup
        exact absurd (nodup_cons.1 hnodup).1 (not_not.2 mem_cons_self)
    exact ⟨n, (hout n le_rfl).trans (congrArg some hout')⟩
  ready i := rfl
  stays ks tv hget := nomatch (Trie.get_empty ks).symm.trans hget

end

def raceAtA : List (Bool × Instant) :=
  [(true, 0), (false, 0), (true, 0), (false, 0), (true, 0), (false, 0)]

def fiveAndThree (i : Bool) : ℤ := if i then 5 else 3

theorem getMessage_new_a : getMessage .new 0 "a" = .ok [] :=
  getMessage_eq .new 0 (show Topic.fromStr "a" = .ok ⟨[.normal "a"]⟩ by decide +kernel) rfl

theorem store_raceAtA : (raceAtA.foldl (act noLimits) (startAtA fiveAndThree)).store =
    RamRetainer.afterSet noLimits (RamRetainer.afterSet noLimits .new 0 "a" (atA 5) none) 0 "a" (atA 3)
      none := by
  simp [raceAtA, act, startAtA, Function.update, fiveAndThree, getMessage_new_a, shouldUpdate,
    Except.toOption]

end RetainSync

end FerroMq
