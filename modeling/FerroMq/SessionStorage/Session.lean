import FerroMq.Lib.Tasks
import FerroMq.Session.Subscribe
import FerroMq.SessionStorage.Latest

/-!
# Saving a session

Every save of a `StorageSession` is a task of its own, and so is the deletion when it is dropped.  The tasks
read the session and write the map in separate steps, so a save may be undone by an earlier one
(`subscriptions_saved_along`) and the deletion come before the first save (`dropped_along`).  Lifetimes of the
map and the messages in flight are left out.
-/

namespace FerroMq.SessionStorage

open Lib Codec List

/-- What is stored of a session, under `BASIC`, `LAST_TIME`, `SESSION_SUB_MAP` and `DISCONNECT_INFO`. -/
structure SessionInfoMap where
  basic : Option Basic
  lastTime : Option TimestampMillis
  subs : Option SessionSubs
  disconnectInfo : Option DisconnectInfo

namespace SessionInfoMap

def clear : SessionInfoMap := ⟨none, none, none, none⟩

def record (self : SessionInfoMap) : Option Record :=
  self.basic.map fun basic => ⟨basic, self.lastTime, self.disconnectInfo⟩

def storedSubs (self : SessionInfoMap) : SessionSubs := self.subs.getD ∅

end SessionInfoMap

structure StorageSession where
  /-- `make_basic_info` -/
  basic : Basic
  subscriptions : SessionSubs
  disconnectInfo : DisconnectInfo
  lastTime : TimestampMillis
  writeFailures : ℕ
  sessionInfoMap : SessionInfoMap
  offlineMessagesList : List OfflineMessage

/-- What a task that was spawned has still to do. -/
inductive Task
  /-- `save_to_db` -/
  | saveToDb
  /-- `save_to_db` from `save_basic_info` on -/
  | saveBasicInfo
  /-- `save_subscriptions`, and the end of `save_to_db` -/
  | readSubscriptions
  | saveSubscriptions (subs : SessionSubs)
  | updateLastTime (basic : Basic) (subs : SessionSubs)
  /-- `_update_last_time` once the time is written -/
  | recover (basic : Basic) (subs : SessionSubs)
  | fullSync (basic : Basic) (subs : SessionSubs)
  | saveDisconnectInfo (disconnectInfo : DisconnectInfo)
  | disconnectedSet (disconnectInfo : DisconnectInfo)
  /-- `_delete_from_db` -/
  | clearMap
  | clearList

inductive Call
  | subscriptionsAdd (topicFilter : TopicFilter) (opts : SubscriptionOptions)
  | subscriptionsRemove (topicFilter : TopicFilter)
  | subscriptionsDrain
  | subscriptionsExtend (other : List (TopicFilter × SubscriptionOptions))
  /-- The reasons are left out. -/
  | disconnectedReasonAdd
  | disconnectedSet (d : Option Disconnect) (now : TimestampMillis)
  | keepalive (ping : Bool) (now : TimestampMillis)
  | onDrop

namespace StorageSession

variable (self : StorageSession)

def updateLastTime (saveEnable : Bool) (now : TimestampMillis) : StorageSession × List Task :=
  ({ self with lastTime := now },
    if saveEnable || decide (now - self.lastTime > 1000 * 60) then [.updateLastTime self.basic self.subscriptions]
    else [])

def failed : StorageSession := { self with writeFailures := 1 }

def countFailure : StorageSession := { self with writeFailures := (self.writeFailures + 1) % 2 ^ 64 }

def saveBasicInfo (basic : Basic) (ok : Bool) : StorageSession :=
  if ok then { self with sessionInfoMap := { self.sessionInfoMap with basic := some basic } } else self.failed

def saveSubscriptions (subs : SessionSubs) (ok : Bool) : StorageSession :=
  if ok then { self with sessionInfoMap := { self.sessionInfoMap with subs := some subs } } else self.countFailure

def saveDisconnectInfo (disconnectInfo : DisconnectInfo) (ok : Bool) : StorageSession :=
  if ok then { self with sessionInfoMap := { self.sessionInfoMap with disconnectInfo := some disconnectInfo } }
  else self.countFailure

def exec (ok : Bool) (now : TimestampMillis) : Task → StorageSession × List Task
  | .saveToDb =>
    let (self, tasks) := self.updateLastTime true now
    (self, tasks ++ [.saveBasicInfo])
  | .saveBasicInfo => (self.saveBasicInfo self.basic ok, [.readSubscriptions])
  | .readSubscriptions => (self, [.saveSubscriptions self.subscriptions])
  | .saveSubscriptions subs => (self.saveSubscriptions subs ok, [])
  | .updateLastTime basic subs =>
    if ok then
      ({ self with sessionInfoMap := { self.sessionInfoMap with lastTime := some self.lastTime } },
        [.recover basic subs])
    else (self.failed, [])
  | .recover basic subs =>
    ({ self with writeFailures := 0 }, if self.writeFailures > 0 then [.fullSync basic subs] else [])
  | .fullSync basic subs => (self.saveBasicInfo basic ok, [.saveSubscriptions subs])
  | .saveDisconnectInfo disconnectInfo => (self.saveDisconnectInfo disconnectInfo ok, [])
  | .disconnectedSet disconnectInfo =>
    (if ok then { self with offlineMessagesList := self.offlineMessagesList ++ [none] } else self,
      [.saveDisconnectInfo disconnectInfo])
  | .clearMap => (if ok then { self with sessionInfoMap := .clear } else self, [.clearList])
  | .clearList => (if ok then { self with offlineMessagesList := [] } else self, [])

def innerDisconnectedSet (d : Option Disconnect) (now : TimestampMillis) : DisconnectInfo where
  disconnectedAt := if self.disconnectInfo.disconnectedAt = 0 then now else self.disconnectInfo.disconnectedAt
  mqttDisconnect := d.or self.disconnectInfo.mqttDisconnect

def call : Call → StorageSession × List Task
  | .subscriptionsAdd topicFilter opts =>
    ({ self with subscriptions := self.subscriptions.insert topicFilter opts }, [.readSubscriptions])
  | .subscriptionsRemove topicFilter =>
    ({ self with subscriptions := self.subscriptions.erase topicFilter }, [.readSubscriptions])
  | .subscriptionsDrain => ({ self with subscriptions := ∅ }, [.readSubscriptions])
  | .subscriptionsExtend other =>
    ({ self with
        subscriptions := other.foldl (fun (subs : SessionSubs) e => subs.insert e.1 e.2) self.subscriptions },
      [.readSubscriptions])
  | .disconnectedReasonAdd => (self, [.saveDisconnectInfo self.disconnectInfo])
  | .disconnectedSet d now =>
    let disconnectInfo := self.innerDisconnectedSet d now
    ({ self with disconnectInfo }, [.disconnectedSet disconnectInfo])
  | .keepalive ping now => self.updateLastTime ping now
  | .onDrop => ({ self with subscriptions := ∅ }, [.clearMap])

def create (basic : Basic) (subscriptions : SessionSubs) (disconnectInfo : DisconnectInfo) (connected : Bool)
    (now : TimestampMillis) (sessionInfoMap : SessionInfoMap) (offlineMessagesList : List OfflineMessage) :
    StorageSession × List Task :=
  ({ basic, subscriptions, disconnectInfo, lastTime := now, writeFailures := 0, sessionInfoMap, offlineMessagesList },
    if connected then [.saveToDb] else [])

end StorageSession

/-- A call, or a step of the task at a place, in which a write succeeds or fails. -/
inductive Event
  | call (c : Call)
  | task (i : ℕ) (ok : Bool) (now : TimestampMillis)

def step (s : StorageSession × List Task) : Event → StorageSession × List Task
  | .call c => ((s.1.call c).1, s.2 ++ (s.1.call c).2)
  | .task i ok now => Tasks.turn (fun self => self.exec ok now) s i

/-! ## Subscriptions -/

namespace Task

def unread : Task → Bool
  | saveToDb | saveBasicInfo | readSubscriptions => true
  | _ => false

def held : Task → Option SessionSubs
  | saveSubscriptions subs => some subs
  | _ => none

/-- The task neither clears the map nor brings it up to date after a failure. -/
def Ordinary : Task → Prop
  | fullSync _ _ | clearMap => False
  | _ => True

/-- The task is to write subscriptions. -/
def Saves (t : Task) : Prop := t.unread = true ∨ t.held.isSome = true

instance (t : Task) : Decidable t.Saves := inferInstanceAs (Decidable (_ ∨ _))

end Task

def Event.plain : Event → Bool
  | .call .onDrop => false
  | .call _ => true
  | .task _ ok _ => ok

/-- No save that read the subscriptions earlier is still to write them. -/
def WritesInOrder (s : StorageSession × List Task) : Event → Prop
  | .call _ => True
  | .task i _ _ => ((s.2[i]?).bind Task.held).isSome = true → ∀ t ∈ s.2.take i, t.held = none

instance (s : StorageSession × List Task) : (e : Event) → Decidable (WritesInOrder s e)
  | .call _ => isTrue trivial
  | .task _ _ _ => inferInstanceAs (Decidable (_ → _))

/-- What will be stored when all tasks that have read the subscriptions have written them in that order. -/
def finalSubs (s : StorageSession × List Task) : SessionSubs :=
  (s.2.filterMap Task.held).getLast?.getD s.1.sessionInfoMap.storedSubs

/-- What will be stored is what the session has, unless a task has still to read it. -/
structure CatchesUp (s : StorageSession × List Task) : Prop where
  noFailures : s.1.writeFailures = 0
  ordinary : ∀ t ∈ s.2, t.Ordinary
  last : (∃ t ∈ s.2, t.unread = true) ∨ finalSubs s = s.1.subscriptions

variable {self : StorageSession} {t : Task} {s : StorageSession × List Task}

theorem exec_ordinary (h : self.writeFailures = 0) (ht : t.Ordinary) (now : TimestampMillis) :
    (self.exec true now t).1.writeFailures = 0 ∧ (self.exec true now t).1.subscriptions = self.subscriptions ∧
    ∀ t' ∈ (self.exec true now t).2, t'.Ordinary := by
  cases t with
  | fullSync | clearMap => exact ht.elim
  | recover basic subs => simp [StorageSession.exec, h]
  | _ => exact ⟨h, rfl, by simp [StorageSession.exec, StorageSession.updateLastTime, Task.Ordinary]⟩

/-- What such a step does for the subscriptions: there is still a task to read them, or they are read, or they are
written, or nothing is done about them. -/
theorem exec_subs (h : self.writeFailures = 0) (ht : t.Ordinary) (now : TimestampMillis) :
    (∃ t' ∈ (self.exec true now t).2, t'.unread = true) ∨
    (self.exec true now t).2.filterMap Task.held = [self.subscriptions] ∨
    t.unread = false ∧ (self.exec true now t).2.filterMap Task.held = [] ∧
      (t.held = some (self.exec true now t).1.sessionInfoMap.storedSubs ∨ t.held = none ∧
        (self.exec true now t).1.sessionInfoMap.storedSubs = self.sessionInfoMap.storedSubs) := by
  cases t with
  | fullSync | clearMap => exact ht.elim
  | saveToDb => exact .inl ⟨.saveBasicInfo, by simp [StorageSession.exec, StorageSession.updateLastTime], rfl⟩
  | saveBasicInfo => exact .inl ⟨.readSubscriptions, by simp [StorageSession.exec], rfl⟩
  | readSubscriptions => exact .inr (.inl rfl)
  | saveSubscriptions subs => exact .inr (.inr ⟨rfl, rfl, .inl rfl⟩)
  | recover basic subs => exact .inr (.inr ⟨rfl, by simp [StorageSession.exec, h], .inr ⟨rfl, rfl⟩⟩)
  | _ => exact .inr (.inr ⟨rfl, rfl, .inr ⟨rfl, rfl⟩⟩)

theorem call_ordinary (self : StorageSession) {c : Call} (h : (Event.call c).plain = true) :
    (self.call c).1.writeFailures = self.writeFailures ∧ (self.call c).1.sessionInfoMap = self.sessionInfoMap ∧
    (∀ t ∈ (self.call c).2, t.Ordinary) ∧
    ((∃ t ∈ (self.call c).2, t.unread = true) ∨
      (self.call c).1.subscriptions = self.subscriptions ∧ (self.call c).2.filterMap Task.held = []) := by
  cases c with
  | onDrop => exact (Bool.false_ne_true h).elim
  | keepalive ping now =>
    refine ⟨rfl, rfl, ?_, .inr ⟨rfl, ?_⟩⟩ <;>
      · rw [StorageSession.call, StorageSession.updateLastTime]
        split_ifs <;> simp [Task.Ordinary, Task.held]
  | disconnectedReasonAdd | disconnectedSet =>
    exact ⟨rfl, rfl, by simp [StorageSession.call, Task.Ordinary], .inr ⟨rfl, rfl⟩⟩
  | _ => exact ⟨rfl, rfl, by simp [StorageSession.call, Task.Ordinary], .inl ⟨.readSubscriptions, by
      simp [StorageSession.call], rfl⟩⟩

theorem CatchesUp.call (h : CatchesUp s) {c : Call} (hc : (Event.call c).plain = true) :
    CatchesUp (step s (.call c)) := by
  obtain ⟨hfail, hmap, hord, hsubs⟩ := call_ordinary s.1 hc
  refine ⟨hfail.trans h.noFailures, fun t ht => ?_, ?_⟩
  · exact (mem_append.1 ht).elim (h.ordinary t) (hord t)
  · rcases hsubs with ⟨t, ht, hunread⟩ | ⟨hsame, hheld⟩
    · exact .inl ⟨t, mem_append_right _ ht, hunread⟩
    · refine h.last.imp (fun ⟨t, ht, hunread⟩ => ⟨t, mem_append_left _ ht, hunread⟩) fun hlast => ?_
      rw [finalSubs, step, hmap, hsame, ← hlast, finalSubs, filterMap_append, hheld, append_nil]

theorem CatchesUp.turn (h : CatchesUp s) {i : ℕ} {now : TimestampMillis}
    (horder : WritesInOrder s (.task i true now)) : CatchesUp (step s (.task i true now)) := by
  obtain ⟨self, tasks⟩ := s
  obtain ⟨hfail, hord⟩ := Tasks.turn_keeps (P := fun self => self.writeFailures = 0) (Q := Task.Ordinary)
    (fun self t hs ht => ⟨(exec_ordinary hs ht now).1, (exec_ordinary hs ht now).2.2⟩) h.noFailures h.ordinary i
  refine ⟨hfail, hord, ?_⟩
  rw [step]
  rcases Tasks.turn_cases (fun self => self.exec true now) self tasks i with
    heq | ⟨pre, t, post, rfl, hpre, hget, heq⟩
  · rw [heq]
    exact h.last
  have ht : t.Ordinary := h.ordinary t (mem_append_right _ mem_cons_self)
  rw [heq, finalSubs]
  dsimp only
  rw [(exec_ordinary h.noFailures ht now).2.1, filterMap_append]
  rcases exec_subs h.noFailures ht now with ⟨t', ht', hunread⟩ | hread | ⟨hnot, hnone, hwrite⟩
  · exact .inl ⟨t', mem_append_right _ ht', hunread⟩
  · exact .inr (by rw [hread, getLast?_concat, Option.getD_some])
  · rw [hnone, append_nil, filterMap_append]
    rcases h.last with ⟨t', ht', hunread⟩ | hlast
    · have hne : t' ≠ t := by
        rintro rfl
        exact Bool.false_ne_true (hnot.symm.trans hunread)
      rw [mem_append, mem_cons] at ht'
      have hin : t' ∈ pre ++ post := mem_append.2 (ht'.imp_right fun hin => hin.resolve_left hne)
      exact .inl ⟨t', mem_append_left _ hin, hunread⟩
    · refine .inr (Eq.trans ?_ hlast)
      rw [finalSubs, filterMap_append]
      rcases hwrite with hheld | ⟨hheld, hsame⟩
      · -- what is written comes before all that is still to be written
        have hfirst : pre.filterMap Task.held = [] := by
          refine filterMap_eq_nil_iff.2 fun t' ht' => horder ?_ t' (hpre ▸ ht')
          rw [hget, Option.bind_some, hheld]
          rfl
        rw [hfirst, filterMap_cons_some hheld, nil_append, nil_append, getLast?_cons,
          Option.getD_some]
      · rw [filterMap_cons_none hheld, hsame]

section Runs

variable {basic : Basic} {subscriptions : SessionSubs} {disconnectInfo : DisconnectInfo} {connected : Bool}
  {now : TimestampMillis} {sessionInfoMap : SessionInfoMap} {offlineMessagesList : List OfflineMessage}

theorem catchesUp_create (h : connected = true ∨ sessionInfoMap.storedSubs = subscriptions) :
    CatchesUp (StorageSession.create basic subscriptions disconnectInfo connected now sessionInfoMap
      offlineMessagesList) := by
  refine ⟨rfl, fun t ht => ?_, ?_⟩
  · cases connected with
    | false => cases ht
    | true =>
      rw [mem_singleton.1 ht]
      trivial
  · cases connected with
    | false => exact .inr (h.resolve_left Bool.false_ne_true)
    | true => exact .inl ⟨.saveToDb, mem_singleton.2 rfl, rfl⟩

/-- Whatever happens after the creation of a session, as long as all writes succeed and the session is not dropped: if
no save writes the subscriptions before one that has read them earlier, what is stored when no save is pending is what
the session has. -/
theorem subscriptions_saved_along {es : List Event}
    (hstart : connected = true ∨ sessionInfoMap.storedSubs = subscriptions)
    (hes : Along step (fun s e => e.plain = true ∧ WritesInOrder s e)
      (StorageSession.create basic subscriptions disconnectInfo connected now sessionInfoMap offlineMessagesList) es) :
    let s := es.foldl step
      (StorageSession.create basic subscriptions disconnectInfo connected now sessionInfoMap offlineMessagesList)
    (∀ t ∈ s.2, ¬ t.Saves) → s.1.sessionInfoMap.storedSubs = s.1.subscriptions := by
  intro s hdone
  have hinv : CatchesUp s := by
    refine hes.invariant (fun s e hok hs => ?_) (catchesUp_create hstart)
    cases e with
    | call c => exact hs.call hok.1
    | task i ok now =>
      obtain ⟨hplain, horder⟩ := hok
      obtain rfl : ok = true := hplain
      exact hs.turn horder
  rcases hinv.last with ⟨t, ht, hunread⟩ | hlast
  · exact absurd (.inl hunread) (hdone t ht)
  · have hheld : s.2.filterMap Task.held = [] := by
      refine filterMap_eq_nil_iff.2 fun t ht => ?_
      exact Option.not_isSome_iff_eq_none.1 fun hsome => hdone t ht (.inr hsome)
    rw [finalSubs, hheld] at hlast
    exact hlast

def fresh : StorageSession × List Task :=
  StorageSession.create Record.stale.basic ∅ ⟨0, none⟩ true 0 .clear []

/-- A session is created and saved, and there are two subscriptions; both saves have read when the first is to
write. -/
def twoSaves : List Event :=
  List.replicate 6 (.task 0 true 0) ++
    [.call (.subscriptionsAdd "a" default), .task 0 true 0, .call (.subscriptionsAdd "b" default), .task 1 true 0]

theorem subscriptions_saved_along_two :
    let s := (twoSaves ++ [Event.task 0 true 0, .task 0 true 0]).foldl step fresh
    s.2.length = 0 ∧ s.1.sessionInfoMap.storedSubs = s.1.subscriptions :=
  ⟨by decide +kernel, subscriptions_saved_along (.inl rfl) (by decide +kernel :
    Along step (fun s e => e.plain = true ∧ WritesInOrder s e) fresh _) (by decide +kernel)⟩

/-- The second save writes before the first, and then the first: the second subscription is lost. -/
theorem subscription_overwritten :
    let s := (twoSaves ++ [Event.task 1 true 0, .task 0 true 0]).foldl step fresh
    s.2.length = 0 ∧ s.1.subscriptions.lookup "b" = some default ∧
      s.1.sessionInfoMap.storedSubs.lookup "b" = none := by
  decide +kernel

end Runs

/-! ## Deletion -/

def Task.mayWriteBasic : Task → Bool
  | saveToDb | saveBasicInfo | updateLastTime _ _ | recover _ _ | fullSync _ _ => true
  | _ => false

def Task.clears : Task → Bool
  | clearMap => true
  | _ => false

/-- The map is cleared without an error, and no task that may still write basic information is pending then. -/
def ClearsLast (s : StorageSession × List Task) : Event → Prop
  | .call _ => True
  | .task i ok _ => (s.2[i]?).any Task.clears = true → ok = true ∧ ∀ t ∈ s.2, t.mayWriteBasic = false

instance (s : StorageSession × List Task) : (e : Event) → Decidable (ClearsLast s e)
  | .call _ => isTrue trivial
  | .task _ _ _ => inferInstanceAs (Decidable (_ → _))

/-- The map is still to be cleared, or there is no basic information and will not be any. -/
def Goes (s : StorageSession × List Task) : Prop :=
  .clearMap ∈ s.2 ∨ s.1.sessionInfoMap.basic = none ∧ ∀ t ∈ s.2, t.mayWriteBasic = false

theorem exec_basic (h : self.sessionInfoMap.basic = none)
    (ht : t.mayWriteBasic = false) (ok : Bool) (now : TimestampMillis) :
    (self.exec ok now t).1.sessionInfoMap.basic = none ∧
    ∀ t' ∈ (self.exec ok now t).2, t'.mayWriteBasic = false := by
  cases t with
  | saveToDb | saveBasicInfo | updateLastTime | recover | fullSync => cases ht
  | clearMap =>
    refine ⟨?_, by simp [StorageSession.exec, Task.mayWriteBasic]⟩
    cases ok with
    | false => exact h
    | true => rfl
  | _ => cases ok <;> exact ⟨h, by simp [StorageSession.exec, Task.mayWriteBasic]⟩

theorem Goes.turn (h : Goes s) {i : ℕ} {ok : Bool} {now : TimestampMillis}
    (hlast : ClearsLast s (.task i ok now)) : Goes (step s (.task i ok now)) := by
  obtain ⟨self, tasks⟩ := s
  rcases h with hclear | ⟨hbasic, hnone⟩
  · rw [step]
    rcases Tasks.turn_cases (fun self => self.exec ok now) self tasks i with
      heq | ⟨pre, t, post, rfl, -, hget, heq⟩
    · rw [heq]
      exact .inl hclear
    rw [heq]
    by_cases ht : t = .clearMap
    · subst ht
      obtain ⟨rfl, hothers⟩ := hlast (by rw [hget]; rfl)
      refine .inr ⟨rfl, fun t ht => ?_⟩
      rw [mem_append, mem_append] at ht
      rcases ht with (hpre | hpost) | hin
      · exact hothers t (mem_append_left _ hpre)
      · exact hothers t (mem_append_right _ (mem_cons_of_mem _ hpost))
      · rw [mem_singleton.1 hin]
        rfl
    · rw [mem_append, mem_cons] at hclear
      have hin : Task.clearMap ∈ pre ++ post :=
        mem_append.2 (hclear.imp_right fun hin => hin.resolve_left (Ne.symm ht))
      exact .inl (mem_append_left _ hin)
  · exact .inr (Tasks.turn_keeps (P := fun self => self.sessionInfoMap.basic = none)
      (fun self t hs ht => exec_basic hs ht ok now) hbasic hnone i)

abbrev Event.ofTurn (e : ℕ × Bool × TimestampMillis) : Event := .task e.1 e.2.1 e.2.2

/-- Whatever happens from the creation of a session to its end, and then to the tasks that are left: if none of them may
still write basic information when the map is cleared, and that does not fail, there is nothing to load once the map
has been cleared. -/
theorem dropped_along {s : StorageSession × List Task} {es : List Event} {turns : List (ℕ × Bool × TimestampMillis)}
    (h : Along step ClearsLast s (es ++ .call .onDrop :: turns.map .ofTurn)) :
    let s' := (es ++ Event.call .onDrop :: turns.map Event.ofTurn).foldl step s
    (∀ t ∈ s'.2, t.clears = false) → s'.1.sessionInfoMap.record = none := by
  intro s' hdone
  obtain ⟨-, -, hturns⟩ := along_append.1 h
  have hinv : Goes s' := by
    have hs' : s' = turns.foldl (fun s e => step s (.ofTurn e)) (step (es.foldl step s) (.call .onDrop)) := by
      rw [← foldl_map, ← foldl_cons, ← foldl_append]
    rw [hs']
    exact ((along_map _).1 hturns).invariant (fun s e hok hs => hs.turn hok)
      (.inl (mem_append_right _ mem_cons_self))
  obtain ⟨hbasic, -⟩ := hinv.resolve_left fun hin => Bool.false_ne_true (hdone _ hin).symm
  rw [SessionInfoMap.record, hbasic, Option.map_none]

/-- The session is saved before it is dropped. -/
theorem dropped_along_saved :
    let s' := (List.replicate 6 (Event.task 0 true 0) ++ .call .onDrop ::
      [(0, true, 0), (0, true, 0)].map Event.ofTurn).foldl step fresh
    s'.2.length = 0 ∧ s'.1.sessionInfoMap.record = none :=
  ⟨by decide +kernel, dropped_along (by decide +kernel) (by decide +kernel)⟩

/-- The session is dropped before the first save has taken a step: the map is cleared and then written. -/
theorem dropped_stays :
    let s' := (Event.call .onDrop :: .task 1 true 0 :: .task 1 true 0 ::
      List.replicate 6 (.task 0 true 0)).foldl step fresh
    s'.2.length = 0 ∧ s'.1.sessionInfoMap.record.isSome = true := by
  decide +kernel

end FerroMq.SessionStorage
