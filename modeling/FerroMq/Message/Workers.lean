import FerroMq.Lib.History
import FerroMq.Message.Ram

/-!
# Stored messages in a database

`StorageMessageManager`: ids come from a counter in memory, and each of 64 workers writes the counter to the
database before it stores a message, so that the next start goes on from there.  `fresh_along` says when it
stays above the ids of all stored messages.
-/

namespace FerroMq

open Lib List
open Function (update)

/-- What survives a restart: the entry `id_generater`, and in a map for each message the message and its
recipients. -/
structure MessageDb where
  idGenerater : Option ℕ := none
  messages : Map MsgId StoredMessage := ∅
  forwardeds : Map MsgId (Map ClientId (Option (TopicFilter × SharedGroup))) := ∅

namespace MessageDb

/-- The counter that is read back is greater than the ids of all messages. -/
def Fresh (db : MessageDb) : Prop := ∀ id ∈ db.messages.keys, id < db.idGenerater.getD 1

instance (db : MessageDb) : Decidable db.Fresh := Finset.decidableDforallFinset

end MessageDb

namespace StorageMessageManager

abbrev Msg := RamMessageManager.Msg

def Msg.msgId : Msg → MsgId
  | .store _ _ _ msgId _ | .markForwarded msgId _ => msgId

abbrev workerCount : ℕ := 64

/-- How far a worker is with a message. -/
inductive Phase
  | idle
  | taken (msg : Msg)
  /-- `storage_save_msg_id` has loaded the counter. -/
  | loaded (msg : Msg) (currMsgId : ℕ)
  /-- `storage_save_msg_id` is done. -/
  | saved (msg : Msg)

inductive Event
  /-- `next_msg_id` -/
  | next
  /-- `route_msg`, from `store` and `mark_forwarded` -/
  | route (msg : Msg)
  /-- A worker takes the next message from its channel. -/
  | take (w : Fin workerCount)
  | load (w : Fin workerCount)
  | save (w : Fin workerCount)
  /-- The rest of storing a message, at a time. -/
  | put (w : Fin workerCount) (now : TimestampMillis)
  /-- A message is marked as forwarded. -/
  | mark (w : Fin workerCount)
  /-- An operation of the database fails or takes too long. -/
  | fail (w : Fin workerCount)
  /-- The broker stops at this point and starts again. -/
  | restart

end StorageMessageManager

structure StorageMessageManager where
  storageDb : MessageDb
  idGenerater : ℕ
  /-- the ids that `next_msg_id` has returned since the start -/
  issued : List MsgId
  channels : Fin StorageMessageManager.workerCount → List StorageMessageManager.Msg
  workers : Fin StorageMessageManager.workerCount → StorageMessageManager.Phase

namespace StorageMessageManager

def new (storageDb : MessageDb) : StorageMessageManager where
  storageDb
  idGenerater := storageDb.idGenerater.getD 1
  issued := []
  channels _ := []
  workers _ := .idle

variable (self : StorageMessageManager)

def storageNextMsgId : MsgId × StorageMessageManager :=
  (self.idGenerater,
    { self with
      idGenerater := (self.idGenerater + 1) % 2 ^ 64
      issued := self.idGenerater :: self.issued })

def workerOf (msgId : MsgId) : Fin workerCount := ⟨msgId % workerCount, Nat.mod_lt msgId (by decide)⟩

def routeMsg (msg : Msg) : StorageMessageManager :=
  { self with
    channels := Function.update self.channels (workerOf msg.msgId) (self.channels (workerOf msg.msgId) ++ [msg]) }

def setWorker (w : Fin workerCount) (phase : Phase) : StorageMessageManager :=
  { self with workers := Function.update self.workers w phase }

def forwardeds (db : MessageDb) (msgId : MsgId) (recipients : ForwardedRecipients) : MessageDb :=
  { db with
    forwardeds := db.forwardeds.insert msgId
      (recipients.foldl (fun clientids (clientId, opts) => clientids.insert clientId opts)
        ((db.forwardeds.lookup msgId).getD ∅)) }

def storeMessage (db : MessageDb) (now : TimestampMillis) : Msg → MessageDb
  | .store «from» publish expiryInterval msgId recipients =>
    match Topic.fromStr publish.inner.topic with
    | .error _ => db
    | .ok _ =>
      let expiryTimeAt := now + ((expiryInterval / 10 ^ 6 : ℕ) : ℤ)
      let db := { db with messages := db.messages.insert msgId { msgId, «from», publish, expiryTimeAt } }
      match recipients with
      | some recipients => forwardeds db msgId recipients
      | none => db
  | .markForwarded _ _ => db

def markMessage (db : MessageDb) : Msg → MessageDb
  | .store _ _ _ _ _ => db
  | .markForwarded msgId recipients =>
    if (db.messages.lookup msgId).isSome then forwardeds db msgId recipients else db

/-- A step; one that is not to be taken changes nothing.  Messages are stored and marked under ids that were handed
out. -/
def step : Event → StorageMessageManager
  | .next => self.storageNextMsgId.2
  | .route msg => if msg.msgId ∈ self.issued then self.routeMsg msg else self
  | .take w =>
    match self.workers w, self.channels w with
    | .idle, msg :: msgs => { self with channels := Function.update self.channels w msgs }.setWorker w (.taken msg)
    | _, _ => self
  | .load w =>
    match self.workers w with
    | .taken (.store «from» publish expiryInterval msgId recipients) =>
      self.setWorker w (.loaded (.store «from» publish expiryInterval msgId recipients) self.idGenerater)
    | _ => self
  | .save w =>
    match self.workers w with
    | .loaded msg currMsgId =>
      { self with storageDb := { self.storageDb with idGenerater := some currMsgId } }.setWorker w (.saved msg)
    | _ => self
  | .put w now =>
    match self.workers w with
    | .saved msg => { self with storageDb := storeMessage self.storageDb now msg }.setWorker w .idle
    | _ => self
  | .mark w =>
    match self.workers w with
    | .taken (.markForwarded msgId recipients) =>
      { self with storageDb := markMessage self.storageDb (.markForwarded msgId recipients) }.setWorker w .idle
    | _ => self
  | .fail w => self.setWorker w .idle
  | .restart => new self.storageDb

/-- The value that a worker has loaded is not smaller than another. -/
def Phase.AtLeast (stored : ℕ) : Phase → Prop
  | .loaded _ currMsgId => stored ≤ currMsgId
  | .idle | .taken _ | .saved _ => True

/-- The counter stays a word, and no worker writes a value that is smaller than the one in the database. -/
def Allowed : Event → Prop
  | .next => self.idGenerater + 1 < 2 ^ 64
  | .save w => (self.workers w).AtLeast (self.storageDb.idGenerater.getD 1)
  | .route _ | .take _ | .load _ | .put _ _ | .mark _ | .fail _ | .restart => True

/-! ## What holds at all times -/

/-- The id of the message of a worker is below the counter that the worker has read or written. -/
def Phase.Sound (counter stored : ℕ) : Phase → Prop
  | .idle => True
  | .taken msg => msg.msgId < counter
  | .loaded msg currMsgId => msg.msgId < currMsgId ∧ currMsgId ≤ counter
  | .saved msg => msg.msgId < stored

theorem Phase.Sound.mono {counter counter' stored stored' : ℕ} {phase : Phase} (h : phase.Sound counter stored)
    (hc : counter ≤ counter') (hs : stored ≤ stored') : phase.Sound counter' stored' := by
  cases phase with
  | idle => trivial
  | taken msg => exact h.trans_le hc
  | loaded msg currMsgId => exact ⟨h.1, h.2.trans hc⟩
  | saved msg => exact h.trans_le hs

structure Sound (m : StorageMessageManager) : Prop where
  fresh : m.storageDb.Fresh
  stored_le : m.storageDb.idGenerater.getD 1 ≤ m.idGenerater
  issued : ∀ id ∈ m.issued, id < m.idGenerater
  channels : ∀ w, ∀ msg ∈ m.channels w, msg.msgId < m.idGenerater
  workers : ∀ w, (m.workers w).Sound m.idGenerater (m.storageDb.idGenerater.getD 1)

theorem sound_new (db : MessageDb) (h : db.Fresh) : (new db).Sound :=
  ⟨h, le_rfl, fun _ hid => absurd hid not_mem_nil, fun _ _ hmsg => absurd hmsg not_mem_nil, fun _ => trivial⟩

section

variable {self} {w : Fin workerCount} {phase : Phase} {msg : Msg}

theorem Sound.setWorker (h : self.Sound)
    (hphase : phase.Sound self.idGenerater (self.storageDb.idGenerater.getD 1)) : (self.setWorker w phase).Sound := by
  refine { h with workers := fun w' => ?_ }
  change (update self.workers w phase w').Sound _ _
  rw [Function.update_apply]
  split_ifs
  · exact hphase
  · exact h.workers w'

theorem Sound.setDb (h : self.Sound) {db : MessageDb} (hfresh : db.Fresh)
    (hcounter : db.idGenerater = self.storageDb.idGenerater) : { self with storageDb := db }.Sound := by
  refine ⟨hfresh, ?_, h.issued, h.channels, ?_⟩
  · change db.idGenerater.getD 1 ≤ self.idGenerater
    rw [hcounter]
    exact h.stored_le
  · change ∀ w, (self.workers w).Sound self.idGenerater (db.idGenerater.getD 1)
    rw [hcounter]
    exact h.workers

theorem Sound.next (h : self.Sound) (hlt : self.idGenerater + 1 < 2 ^ 64) : self.storageNextMsgId.2.Sound := by
  have hcounter : self.storageNextMsgId.2.idGenerater = self.idGenerater + 1 := Nat.mod_eq_of_lt hlt
  have hle : self.idGenerater ≤ self.storageNextMsgId.2.idGenerater := hcounter ▸ Nat.le_succ _
  refine ⟨h.fresh, h.stored_le.trans hle, fun id hid => ?_, fun w msg hmsg => (h.channels w msg hmsg).trans_le hle,
    fun w => (h.workers w).mono hle le_rfl⟩
  rw [hcounter]
  rcases mem_cons.1 hid with rfl | hid
  · exact Nat.lt_succ_self _
  · exact (h.issued id hid).trans (Nat.lt_succ_self _)

theorem Sound.route (h : self.Sound) (hmsg : msg.msgId ∈ self.issued) : (self.routeMsg msg).Sound := by
  refine { h with channels := fun w msg' hmsg' => ?_ }
  change msg' ∈ update self.channels _ _ w at hmsg'
  rw [Function.update_apply] at hmsg'
  split_ifs at hmsg'
  · rcases mem_append.1 hmsg' with hmem | hmem
    · exact h.channels _ msg' hmem
    · rw [mem_singleton.1 hmem]
      exact h.issued _ hmsg
  · exact h.channels w msg' hmsg'

theorem Sound.take (h : self.Sound) {msgs : List Msg} (hw : self.channels w = msg :: msgs) :
    ({ self with channels := update self.channels w msgs }.setWorker w (.taken msg)).Sound := by
  refine Sound.setWorker { h with channels := fun w' msg' hmsg' => ?_ } (h.channels w msg (hw ▸ mem_cons_self))
  change msg' ∈ update self.channels _ _ w' at hmsg'
  rw [Function.update_apply] at hmsg'
  split_ifs at hmsg' with heq
  · exact h.channels w msg' (hw ▸ mem_cons_of_mem msg hmsg')
  · exact h.channels w' msg' hmsg'

theorem Sound.save (h : self.Sound) {currMsgId : ℕ} (hw : self.workers w = .loaded msg currMsgId)
    (hle : self.storageDb.idGenerater.getD 1 ≤ currMsgId) :
    ({ self with storageDb := { self.storageDb with idGenerater := some currMsgId } }.setWorker w
      (.saved msg)).Sound := by
  have hworker : msg.msgId < currMsgId ∧ currMsgId ≤ self.idGenerater := by
    have hphase := h.workers w
    rwa [hw] at hphase
  refine Sound.setWorker ⟨fun id hid => ?_, hworker.2, h.issued, h.channels, fun w' => ?_⟩ hworker.1
  · exact (h.fresh id hid).trans_le hle
  · exact (h.workers w').mono le_rfl hle

theorem fresh_forwardeds {db : MessageDb} (h : db.Fresh) (msgId : MsgId) (recipients : ForwardedRecipients) :
    (forwardeds db msgId recipients).Fresh := h

theorem fresh_storeMessage {db : MessageDb} (h : db.Fresh) (hmsg : msg.msgId < db.idGenerater.getD 1)
    (now : TimestampMillis) : (storeMessage db now msg).Fresh := by
  cases msg with
  | markForwarded msgId recipients => exact h
  | store «from» publish expiryInterval msgId recipients =>
    rw [storeMessage]
    split
    · exact h
    · have hinsert : ∀ smsg, MessageDb.Fresh { db with messages := db.messages.insert msgId smsg } := by
        intro smsg id hid
        rw [Map.keys_insert, Finset.mem_insert] at hid
        rcases hid with rfl | hid
        · exact hmsg
        · exact h id hid
      cases recipients with
      | none => exact hinsert _
      | some recipients => exact fresh_forwardeds (hinsert _) msgId recipients

theorem idGenerater_storeMessage (db : MessageDb) (now : TimestampMillis) (msg : Msg) :
    (storeMessage db now msg).idGenerater = db.idGenerater := by
  cases msg with
  | markForwarded msgId recipients => rfl
  | store «from» publish expiryInterval msgId recipients =>
    rw [storeMessage]
    split
    · rfl
    · cases recipients <;> rfl

theorem Sound.step (h : self.Sound) {e : Event} (hok : self.Allowed e) : (self.step e).Sound := by
  cases e with
  | next => exact h.next hok
  | route msg =>
    rw [StorageMessageManager.step]
    split_ifs with hmsg
    · exact h.route hmsg
    · exact h
  | take w =>
    rw [StorageMessageManager.step]
    split
    · next hw => exact h.take hw
    · exact h
  | load w =>
    rw [StorageMessageManager.step]
    split
    · next hw =>
      have hphase := h.workers w
      rw [hw] at hphase
      exact h.setWorker ⟨hphase, le_rfl⟩
    · exact h
  | save w =>
    rw [StorageMessageManager.step]
    split
    · next msg currMsgId hw =>
      have hle : Phase.AtLeast _ (self.workers w) := hok
      rw [hw] at hle
      exact h.save hw hle
    · exact h
  | put w now =>
    rw [StorageMessageManager.step]
    split
    · next msg hw =>
      have hphase := h.workers w
      rw [hw] at hphase
      exact (h.setDb (fresh_storeMessage h.fresh hphase now) (idGenerater_storeMessage _ now msg)).setWorker trivial
    · exact h
  | mark w =>
    rw [StorageMessageManager.step]
    split
    · refine (h.setDb ?_ ?_).setWorker trivial
      · rw [markMessage]
        split_ifs
        · exact fresh_forwardeds h.fresh _ _
        · exact h.fresh
      · rw [markMessage]
        split_ifs <;> rfl
    · exact h
  | fail w => exact h.setWorker trivial
  | restart => exact sound_new _ h.fresh

end

/-- In a run whose steps are all allowed, with any number of restarts, the counter in the database is at all times
greater than the ids of the messages there. -/
theorem ids_fresh_along (run : List Event) (h : Along step Allowed (new {}) run) {pre : List Event}
    (hpre : pre <+: run) : (pre.foldl step (new {})).storageDb.Fresh := by
  obtain ⟨post, rfl⟩ := hpre
  exact ((along_append.1 h).1.invariant (fun _ _ hok hs => hs.step hok)
    (sound_new {} fun _ hid => absurd hid (Finset.notMem_empty _))).fresh

instance (stored : ℕ) (phase : Phase) : Decidable (phase.AtLeast stored) := by
  cases phase with
  | loaded msg currMsgId => exact Nat.decLe _ _
  | idle | taken | saved => exact instDecidableTrue

instance (self : StorageMessageManager) (e : Event) : Decidable (self.Allowed e) := by
  unfold Allowed
  cases e <;> infer_instance

def smallMsg (msgId : MsgId) : Msg :=
  let retain := Retain.plain "a" [0] none
  .store retain.from retain.publish (10 ^ 12) msgId none

/-- Two workers store two messages, and the values of the counter are written in the order in which they were
loaded. -/
theorem ids_fresh_along_two :
    ([.next, .next, .route (smallMsg 1), .route (smallMsg 2), .take 1, .load 1, .take 2, .save 1, .load 2, .save 2,
      .put 2 0, .put 1 0, .restart, .next] : List Event).foldl step (new {}) |>.storageDb.Fresh :=
  ids_fresh_along _ (by decide +kernel) List.prefix_rfl

/-- The first of two workers writes the value that it has loaded when the second one is done: after a restart the id of
a message that is there is handed out again. -/
theorem id_reused :
    let s := ([.next, .route (smallMsg 1), .take 1, .load 1, .next, .route (smallMsg 2), .take 2, .load 2, .save 2,
      .put 2 0, .save 1] : List Event).foldl step (new {})
    ¬ s.storageDb.Fresh ∧ (s.step .restart).storageNextMsgId.1 ∈ (s.step .restart).storageDb.messages.keys := by
  decide +kernel

end StorageMessageManager

end FerroMq
