import FerroMq.Retain.Storage

/-!
# Batched writes of retained messages

`_batch_store_new` executes removals, insertions and lifetimes one list after the other, while the tree of
topics is updated in the order of the messages; `_batch_store` writes message by message.  `batch_agrees_iff`
says for which batches both leave the same.
-/

namespace FerroMq

open Lib List
open Function (update update_self update_of_ne)

/-! ## The storage -/

/-- The backends of the retainer. -/
inductive StorageType
  | sled
  | redis
  deriving DecidableEq, Repr

/-- A value and the time at which the storage drops it. -/
structure StoredEntry (V : Type) where
  value : V
  expireAt : Option TimestampMillis
  deriving DecidableEq

abbrev StorageDb (V : Type) := String → Option (StoredEntry V)

namespace StorageDb

variable {V : Type} (typ : StorageType) (now : TimestampMillis)

def insert (db : StorageDb V) (key : String) (val : V) : StorageDb V :=
  Function.update db key (some ⟨val, none⟩)

def remove (db : StorageDb V) (key : String) : StorageDb V := Function.update db key none

/-- `expire`.  Redis deletes a key whose lifetime is zero. -/
def expireEntry (dur : ℕ) (e : StoredEntry V) : Option (StoredEntry V) :=
  if typ = .redis ∧ dur = 0 then none else some { e with expireAt := some (now + dur) }

def expire (db : StorageDb V) (key : String) (dur : ℕ) : StorageDb V :=
  Function.update db key ((db key).bind (expireEntry typ now dur))

def batchRemove (db : StorageDb V) (keys : List String) : StorageDb V := keys.foldl remove db

/-- The lifetime that sled keeps when a batch writes over an entry: the one that has not run out. -/
def keptExpireAt (e : Option (StoredEntry V)) : Option TimestampMillis :=
  (e.bind StoredEntry.expireAt).filter fun expireAt => decide (expireAt - now > 0)

/-- `batch_insert`.  The `MSET` of Redis drops the lifetimes of its keys; sled looks at the lifetimes
before the batch and only drops those that have run out. -/
def batchInsert (db : StorageDb V) (keyVals : List (String × V)) : StorageDb V :=
  match typ with
  | .redis => keyVals.foldl (fun db kv => insert db kv.1 kv.2) db
  | .sled => keyVals.foldl
      (fun db' kv => Function.update db' kv.1 (some ⟨kv.2, keptExpireAt now (db kv.1)⟩)) db

def seen (e : Option (StoredEntry V)) : Option (StoredEntry V) :=
  e.filter fun e => e.expireAt.all fun expireAt => decide (now < expireAt)

end StorageDb

/-! ## The retainer -/

/-- A message and the time at which it expires. -/
abbrev StoredMsg := Retain × Option TimestampMillis

abbrev Msg := String × Retain × Option Nanos

structure RetainerInner where
  /-- The keys are the topics, behind a prefix of their own. -/
  storageDb : StorageDb StoredMsg
  /-- The counter `RETAIN_MESSAGES_MAX` of the storage. -/
  storageMessagesMax : ℤ
  topics : RetainTree (TimedValue Unit)

/-! ### What the operations do to one key -/

namespace StorageDb

variable {V W : Type} {typ : StorageType} {now : TimestampMillis}

def ofKey (key : String) (l : List (String × W)) : List W :=
  l.filterMap fun x => if x.1 = key then some x.2 else none

@[simp] theorem ofKey_nil (key : String) : ofKey key ([] : List (String × W)) = [] := rfl

theorem ofKey_cons (key : String) (x : String × W) (l : List (String × W)) :
    ofKey key (x :: l) = if x.1 = key then x.2 :: ofKey key l else ofKey key l := by
  rw [ofKey, filterMap_cons]
  split_ifs <;> rfl

theorem foldl_apply_key {A : Type} {f : (String → A) → String × W → String → A} {g : A → W → A}
    (hself : ∀ db x, f db x x.1 = g (db x.1) x.2) (hother : ∀ db x key, key ≠ x.1 → f db x key = db key)
    (db : String → A) (l : List (String × W)) (key : String) :
    l.foldl f db key = (ofKey key l).foldl g (db key) := by
  induction l generalizing db with
  | nil => rfl
  | cons x l ih =>
    rw [foldl_cons, ih, ofKey_cons]
    split_ifs with hkey
    · subst hkey
      rw [foldl_cons, hself]
    · rw [hother db x key (Ne.symm hkey)]

theorem batchRemove_apply (db : StorageDb V) (keys : List String) (key : String) :
    batchRemove db keys key = if key ∈ keys then none else db key := by
  induction keys generalizing db with
  | nil => rfl
  | cons k keys ih =>
    rw [batchRemove, foldl_cons]
    refine (ih _).trans ?_
    by_cases hkey : key = k
    · subst hkey
      simp [remove]
    · simp [remove, hkey]

def keptBy (typ : StorageType) (now : TimestampMillis) (e : Option (StoredEntry V)) :
    Option TimestampMillis :=
  match typ with
  | .redis => none
  | .sled => keptExpireAt now e

theorem foldl_put_apply (ttl : String → Option TimestampMillis) (db : StorageDb V)
    (kvs : List (String × V)) (key : String) :
    kvs.foldl (fun (db : StorageDb V) kv => update db kv.1 (some ⟨kv.2, ttl kv.1⟩)) db key =
      match (ofKey key kvs).getLast? with
      | some val => some ⟨val, ttl key⟩
      | none => db key := by
  induction kvs using List.reverseRecOn with
  | nil => rfl
  | append_singleton kvs kv ih =>
    rw [foldl_append, foldl_cons, foldl_nil, ofKey, filterMap_append]
    by_cases hkey : kv.1 = key
    · subst hkey
      rw [update_self]
      simp
    · rw [update_of_ne (Ne.symm hkey), ih]
      simp [hkey, ofKey]

theorem batchInsert_apply (db : StorageDb V) (kvs : List (String × V)) (key : String) :
    batchInsert typ now db kvs key =
      match (ofKey key kvs).getLast? with
      | some val => some ⟨val, keptBy typ now (db key)⟩
      | none => db key := by
  cases typ with
  | redis => exact foldl_put_apply (fun _ => none) db kvs key
  | sled => exact foldl_put_apply (fun k => keptExpireAt now (db k)) db kvs key

def expireSome (typ : StorageType) (now : TimestampMillis) (e : Option (StoredEntry V)) (dur : ℕ) :
    Option (StoredEntry V) :=
  e.bind (expireEntry typ now dur)

theorem foldl_expire_apply (db : StorageDb V) (tasks : List (String × ℕ)) (key : String) :
    tasks.foldl (fun db task => expire typ now db task.1 task.2) db key =
      (ofKey key tasks).foldl (expireSome typ now) (db key) :=
  foldl_apply_key (fun _ _ => update_self ..) (fun _ _ _ h => update_of_ne h _ _) db tasks key

theorem foldl_expireSome (val : V) (expireAt : Option TimestampMillis) (durs : List ℕ) :
    durs.foldl (expireSome typ now) (some ⟨val, expireAt⟩) =
      if typ = .redis ∧ 0 ∈ durs then none
      else some ⟨val, (durs.getLast?.map fun dur : ℕ => now + (dur : ℤ)).or expireAt⟩ := by
  induction durs using List.reverseRecOn with
  | nil => simp
  | append_singleton durs dur ih =>
    rw [foldl_append, foldl_cons, foldl_nil, ih, getLast?_concat]
    by_cases hgone : typ = .redis ∧ 0 ∈ durs
    · rw [if_pos hgone, if_pos ⟨hgone.1, mem_append_left _ hgone.2⟩]
      rfl
    · rw [if_neg hgone, expireSome, Option.bind_some, expireEntry]
      by_cases hzero : typ = .redis ∧ dur = 0
      · rw [if_pos hzero, if_pos ⟨hzero.1, by simp [hzero.2]⟩]
      · rw [if_neg hzero, if_neg]
        · rfl
        · rintro ⟨htyp, hmem⟩
          rcases mem_append.1 hmem with hmem | hmem
          · exact hgone ⟨htyp, hmem⟩
          · exact hzero ⟨htyp, (mem_singleton.1 hmem).symm⟩

end StorageDb

namespace RetainerInner

variable (cfg : PluginConfig) (typ : StorageType) (now : Instant) (nowMillis : TimestampMillis)

def asUsize (n : ℤ) : ℕ := (n % 2 ^ 64).toNat

def asMillis (d : Nanos) : ℕ := d / 10 ^ 6

def fromMillis (millis : ℕ) : Nanos := millis * 10 ^ 6

def expiryIntervalMillis (expiryInterval : Option Nanos) : Option ℕ :=
  (cfg.retainedMessageTtl.map fun ttl => if ttl = 0 then none else some (asMillis ttl)).getD
    (expiryInterval.map asMillis)

def checkConstraints (topics : RetainTree (TimedValue Unit)) (retain : Retain) : Bool :=
  if retain.publish.inner.payload.length > cfg.maxPayloadSize then false
  else if asUsize cfg.maxRetainedMessages > 0 ∧ topics.valuesSize ≥ asUsize cfg.maxRetainedMessages then
    false
  else true

/-- The tree is left alone if the topic does not parse. -/
def insertTopic (topics : RetainTree (TimedValue Unit)) (topicName : String) (millis : Option ℕ) :
    RetainTree (TimedValue Unit) :=
  match Topic.fromStr topicName with
  | .ok topic => topics.insert topic (.new () (millis.map fromMillis) now)
  | .error _ => topics

def removeTopic (topics : RetainTree (TimedValue Unit)) (topicName : String) :
    RetainTree (TimedValue Unit) :=
  match Topic.fromStr topicName with
  | .ok topic => (topics.remove topic).1
  | .error _ => topics

def storeOne (s : RetainerInner × ℤ) (msg : Msg) : RetainerInner × ℤ :=
  let (self, count) := s
  let (topicName, retain, expiryInterval) := msg
  if retain.publish.inner.payload.isEmpty then
    ({ self with
        storageDb := StorageDb.remove self.storageDb topicName
        topics := removeTopic self.topics topicName }, count)
  else if !checkConstraints cfg self.topics retain then (self, count)
  else
    let millis := expiryIntervalMillis cfg expiryInterval
    let expiryTimeAt := millis.map fun millis : ℕ => nowMillis + (millis : ℤ)
    let db := StorageDb.insert self.storageDb topicName (retain, expiryTimeAt)
    let db := match millis with
      | some millis => StorageDb.expire typ nowMillis db topicName millis
      | none => db
    ({ self with storageDb := db, topics := insertTopic now self.topics topicName millis }, count + 1)

def batchStore (self : RetainerInner) (msgs : List Msg) : RetainerInner :=
  let (self, count) := msgs.foldl (storeOne cfg typ now nowMillis) (self, 0)
  { self with storageMessagesMax := self.storageMessagesMax + count }

/-- The lists of `_batch_store_new`, with the tree as far as it is updated. -/
structure Batch where
  insertBatch : List (String × StoredMsg) := []
  removeKeys : List String := []
  expireTasks : List (String × ℕ) := []
  topics : RetainTree (TimedValue Unit)
  count : ℤ := 0

def Batch.add (b : Batch) (msg : Msg) : Batch :=
  let (topicName, retain, expiryInterval) := msg
  if retain.publish.inner.payload.isEmpty then
    { b with removeKeys := b.removeKeys ++ [topicName], topics := removeTopic b.topics topicName }
  else if !checkConstraints cfg b.topics retain then b
  else
    let millis := expiryIntervalMillis cfg expiryInterval
    let expiryTimeAt := millis.map fun millis : ℕ => nowMillis + (millis : ℤ)
    { insertBatch := b.insertBatch ++ [(topicName, (retain, expiryTimeAt))]
      removeKeys := b.removeKeys
      expireTasks := match millis with
        | some millis => b.expireTasks ++ [(topicName, millis)]
        | none => b.expireTasks
      topics := insertTopic now b.topics topicName millis
      count := b.count + 1 }

def batchStoreNew (self : RetainerInner) (msgs : List Msg) : RetainerInner :=
  let b := msgs.foldl (Batch.add cfg now nowMillis) { topics := self.topics }
  let db := if b.removeKeys.isEmpty then self.storageDb
    else StorageDb.batchRemove self.storageDb b.removeKeys
  let db := if b.insertBatch.isEmpty then db
    else b.expireTasks.foldl (fun db task => StorageDb.expire typ nowMillis db task.1 task.2)
      (StorageDb.batchInsert typ nowMillis db b.insertBatch)
  { storageDb := db
    storageMessagesMax := self.storageMessagesMax + b.count
    topics := b.topics }

/-! ## The writes of a batch -/

/-- What a message comes to, once it has passed the limits. -/
inductive Write
  | remove
  | store (msg : StoredMsg) (millis : Option ℕ)

/-- The writes that the messages come to, with the tree as they find it. -/
def writes (topics : RetainTree (TimedValue Unit)) : List Msg → List (String × Write)
  | [] => []
  | (topicName, retain, expiryInterval) :: msgs =>
    if retain.publish.inner.payload.isEmpty then
      (topicName, .remove) :: writes (removeTopic topics topicName) msgs
    else if !checkConstraints cfg topics retain then writes topics msgs
    else
      let millis := expiryIntervalMillis cfg expiryInterval
      (topicName, .store (retain, millis.map fun millis : ℕ => nowMillis + (millis : ℤ)) millis) ::
        writes (insertTopic now topics topicName millis) msgs

def Write.toDb (db : StorageDb StoredMsg) : String × Write → StorageDb StoredMsg
  | (key, .remove) => StorageDb.remove db key
  | (key, .store msg none) => StorageDb.insert db key msg
  | (key, .store msg (some millis)) => StorageDb.expire typ nowMillis (StorageDb.insert db key msg) key millis

def Write.toTopics (topics : RetainTree (TimedValue Unit)) : String × Write → RetainTree (TimedValue Unit)
  | (key, .remove) => removeTopic topics key
  | (key, .store _ millis) => insertTopic now topics key millis

def Write.msg : Write → Option StoredMsg
  | .remove => none
  | .store msg _ => some msg

def Write.millis : Write → Option ℕ
  | .remove => none
  | .store _ millis => millis

def inserts (ws : List (String × Write)) : List (String × StoredMsg) :=
  ws.filterMap fun w => w.2.msg.map fun msg => (w.1, msg)

def removes (ws : List (String × Write)) : List String :=
  ws.filterMap fun w => if w.2.msg.isNone then some w.1 else none

def expires (ws : List (String × Write)) : List (String × ℕ) :=
  ws.filterMap fun w => w.2.millis.map fun millis => (w.1, millis)

section

variable {cfg typ now nowMillis}

theorem foldl_storeOne (s : RetainerInner) (count : ℤ) (msgs : List Msg) :
    msgs.foldl (storeOne cfg typ now nowMillis) (s, count) =
      let ws := writes cfg now nowMillis s.topics msgs
      (⟨ws.foldl (Write.toDb typ nowMillis) s.storageDb, s.storageMessagesMax,
        ws.foldl (Write.toTopics now) s.topics⟩, count + (inserts ws).length) := by
  induction msgs generalizing s count with
  | nil => simp [writes, inserts]
  | cons msg msgs ih =>
    obtain ⟨topicName, retain, expiryInterval⟩ := msg
    rw [foldl_cons, storeOne, writes]
    dsimp only
    split_ifs with hempty hcheck
    · rw [ih]
      rfl
    · rw [ih]
    · rw [ih]
      dsimp only
      rw [foldl_cons, foldl_cons]
      cases hmillis : expiryIntervalMillis cfg expiryInterval
      all_goals
        refine Prod.ext rfl ?_
        simp only [inserts, filterMap_cons, Write.msg, Option.map_some, length_cons]
        push_cast
        omega

theorem foldl_add (b : Batch) (msgs : List Msg) :
    msgs.foldl (Batch.add cfg now nowMillis) b =
      let ws := writes cfg now nowMillis b.topics msgs
      ⟨b.insertBatch ++ inserts ws, b.removeKeys ++ removes ws, b.expireTasks ++ expires ws,
        ws.foldl (Write.toTopics now) b.topics, b.count + (inserts ws).length⟩ := by
  induction msgs generalizing b with
  | nil => simp [writes, inserts, removes, expires]
  | cons msg msgs ih =>
    obtain ⟨topicName, retain, expiryInterval⟩ := msg
    rw [foldl_cons, Batch.add, writes]
    dsimp only
    split_ifs with hempty hcheck
    · rw [ih]
      simp [inserts, removes, expires, Write.msg, Write.millis, Write.toTopics]
    · rw [ih]
    · rw [ih]
      cases hmillis : expiryIntervalMillis cfg expiryInterval <;>
      simp [inserts, removes, expires, Write.msg, Write.millis, Write.toTopics, add_assoc, add_comm]

end

/-! ## One topic -/

open StorageDb

def Write.toEntry (_ : Option (StoredEntry StoredMsg)) : Write → Option (StoredEntry StoredMsg)
  | .remove => none
  | .store msg none => some ⟨msg, none⟩
  | .store msg (some millis) => expireEntry typ nowMillis millis ⟨msg, none⟩

def batchEntry (e : Option (StoredEntry StoredMsg)) (own : List Write) : Option (StoredEntry StoredMsg) :=
  let e := if own.any fun w => w.msg.isNone then none else e
  (own.filterMap Write.millis).foldl (expireSome typ nowMillis)
    (match (own.filterMap Write.msg).getLast? with
      | some msg => some ⟨msg, keptBy typ nowMillis e⟩
      | none => e)

section

variable {cfg typ now nowMillis}

theorem foldl_toDb_apply (db : StorageDb StoredMsg) (ws : List (String × Write)) (key : String) :
    ws.foldl (Write.toDb typ nowMillis) db key =
      (ofKey key ws).foldl (Write.toEntry typ nowMillis) (db key) := by
  refine foldl_apply_key (fun db x => ?_) (fun db x key hkey => ?_) db ws key
  · obtain ⟨k, _ | ⟨msg, _ | millis⟩⟩ := x
    · exact update_self ..
    · exact update_self ..
    · rw [Write.toDb, expire, StorageDb.insert, update_self, update_self]
      rfl
  · obtain ⟨k, _ | ⟨msg, _ | millis⟩⟩ := x
    · exact update_of_ne hkey ..
    · exact update_of_ne hkey ..
    · rw [Write.toDb, expire, StorageDb.insert, update_of_ne hkey,
        update_of_ne hkey]

theorem ofKey_inserts (ws : List (String × Write)) (key : String) :
    ofKey key (inserts ws) = (ofKey key ws).filterMap Write.msg := by
  rw [ofKey, inserts, ofKey, filterMap_filterMap, filterMap_filterMap]
  refine filterMap_congr fun w _ => ?_
  by_cases hkey : w.1 = key <;> cases hmsg : w.2.msg <;> simp [hkey, hmsg]

theorem ofKey_expires (ws : List (String × Write)) (key : String) :
    ofKey key (expires ws) = (ofKey key ws).filterMap Write.millis := by
  rw [ofKey, expires, ofKey, filterMap_filterMap, filterMap_filterMap]
  refine filterMap_congr fun w _ => ?_
  by_cases hkey : w.1 = key <;> cases hmillis : w.2.millis <;> simp [hkey, hmillis]

theorem mem_removes_iff (ws : List (String × Write)) (key : String) :
    key ∈ removes ws ↔ ((ofKey key ws).any fun w => w.msg.isNone) = true := by
  rw [removes, mem_filterMap, any_eq_true]
  constructor
  · rintro ⟨w, hw, heq⟩
    split_ifs at heq with hmsg
    exact ⟨w.2, mem_filterMap.2 ⟨w, hw, if_pos (Option.some.inj heq)⟩, hmsg⟩
  · rintro ⟨w, hw, hmsg⟩
    obtain ⟨x, hx, heq⟩ := mem_filterMap.1 hw
    split_ifs at heq with hkey
    refine ⟨x, hx, ?_⟩
    rw [Option.some.inj heq, if_pos hmsg, hkey]

theorem expires_of_inserts_eq_nil {ws : List (String × Write)} (h : inserts ws = []) : expires ws = [] := by
  rw [inserts, filterMap_eq_nil_iff] at h
  rw [expires, filterMap_eq_nil_iff]
  intro w hw
  have hmsg := h w hw
  cases hw' : w.2 with
  | remove => rfl
  | store msg millis =>
    rw [hw'] at hmsg
    exact nomatch hmsg

theorem batchStore_apply (s : RetainerInner) (msgs : List Msg) (key : String) :
    (batchStore cfg typ now nowMillis s msgs).storageDb key =
      (ofKey key (writes cfg now nowMillis s.topics msgs)).foldl (Write.toEntry typ nowMillis)
        (s.storageDb key) := by
  rw [batchStore, foldl_storeOne]
  exact foldl_toDb_apply _ _ _

theorem batchStoreNew_apply (s : RetainerInner) (msgs : List Msg) (key : String) :
    (batchStoreNew cfg typ now nowMillis s msgs).storageDb key =
      batchEntry typ nowMillis (s.storageDb key) (ofKey key (writes cfg now nowMillis s.topics msgs)) := by
  rw [batchStoreNew, foldl_add]
  dsimp only
  simp only [nil_append]
  generalize writes cfg now nowMillis s.topics msgs = ws
  have hremove : (if (removes ws).isEmpty then s.storageDb else batchRemove s.storageDb (removes ws)) =
      batchRemove s.storageDb (removes ws) := by
    split_ifs with hempty
    · rw [isEmpty_iff.1 hempty]
      rfl
    · rfl
  have hinsert : ∀ db : StorageDb StoredMsg, (if (inserts ws).isEmpty then db
      else (expires ws).foldl (fun db task => expire typ nowMillis db task.1 task.2)
        (batchInsert typ nowMillis db (inserts ws))) =
      (expires ws).foldl (fun db task => expire typ nowMillis db task.1 task.2)
        (batchInsert typ nowMillis db (inserts ws)) := by
    intro db
    split_ifs with hempty
    · have hnil := isEmpty_iff.1 hempty
      rw [expires_of_inserts_eq_nil hnil, hnil]
      cases typ <;> rfl
    · rfl
  rw [hremove, hinsert, foldl_expire_apply, batchInsert_apply, batchRemove_apply, ofKey_inserts,
    ofKey_expires, if_congr (mem_removes_iff ws key) rfl rfl, batchEntry]
  cases (List.filterMap Write.msg (ofKey key ws)).getLast? <;> rfl

theorem foldl_toEntry (e : Option (StoredEntry StoredMsg)) (own : List Write) :
    own.foldl (Write.toEntry typ nowMillis) e =
      match own.getLast? with
      | none => e
      | some w => w.toEntry typ nowMillis none := by
  rcases eq_nil_or_concat own with rfl | ⟨own, w, rfl⟩
  · rfl
  · rw [concat_eq_append, foldl_append, getLast?_concat]
    rfl

theorem batchEntry_of_stores {e : Option (StoredEntry StoredMsg)} {own : List Write} {msg : StoredMsg}
    (h : (own.filterMap Write.msg).getLast? = some msg) :
    batchEntry typ nowMillis e own =
      if typ = .redis ∧ 0 ∈ own.filterMap Write.millis then none
      else some ⟨msg, ((own.filterMap Write.millis).getLast?.map fun dur : ℕ => nowMillis + (dur : ℤ)).or
        (keptBy typ nowMillis (if own.any fun w => w.msg.isNone then none else e))⟩ := by
  rw [batchEntry, h]
  exact foldl_expireSome ..

end

/-! ## Where the two agree -/

/-- What the order of the three lists does not undo, by the last write to the key: a removal only comes
after the values of the batch if there are none or their lifetime is zero; an expiry must not come after a
Redis expiry of zero, which has deleted the key; and a value without lifetime must not be given that of an
earlier message or of the entry it replaces. -/
def Agrees (e : Option (StoredEntry StoredMsg)) (own : List Write) : Prop :=
  match own.getLast? with
  | none => True
  | some .remove => own.filterMap Write.msg = [] ∨ (own.filterMap Write.millis).getLast? = some 0 ∨
      typ = .redis ∧ 0 ∈ own.filterMap Write.millis
  | some (.store _ (some millis)) => typ = .redis → 0 ∈ own.filterMap Write.millis → millis = 0
  | some (.store _ none) => own.filterMap Write.millis = [] ∧
      (typ = .sled → .remove ∉ own → keptExpireAt nowMillis e = none)

section

variable {typ nowMillis}

theorem seen_none : seen nowMillis (none : Option (StoredEntry StoredMsg)) = none := rfl

theorem seen_forever (msg : StoredMsg) : seen nowMillis (some ⟨msg, none⟩) = some ⟨msg, none⟩ := rfl

theorem seen_until (msg : StoredMsg) (millis : ℕ) :
    seen nowMillis (some ⟨msg, some (nowMillis + (millis : ℤ))⟩) =
      if millis = 0 then none else some ⟨msg, some (nowMillis + (millis : ℤ))⟩ := by
  rw [seen, Option.filter_some, Option.all_some]
  by_cases hzero : millis = 0
  · rw [if_pos hzero, if_neg]
    simp [hzero]
  · rw [if_neg hzero, if_pos]
    exact decide_eq_true (Int.lt_add_of_pos_right _ (Int.natCast_pos.2 (Nat.pos_of_ne_zero hzero)))

/-- A reader is given what a write has left unless its lifetime is zero. -/
theorem seen_toEntry_store (msg : StoredMsg) (millis : Option ℕ) :
    seen nowMillis ((Write.store msg millis).toEntry typ nowMillis none) =
      if millis = some 0 then none else some ⟨msg, millis.map fun millis : ℕ => nowMillis + (millis : ℤ)⟩ := by
  cases millis with
  | none => rfl
  | some millis =>
    rw [Write.toEntry, expireEntry]
    by_cases hzero : millis = 0
    · rw [if_pos (congrArg some hzero)]
      split_ifs
      · rfl
      · rw [seen_until, if_pos hzero]
    · rw [if_neg (fun h => hzero h.2), seen_until, if_neg hzero, if_neg (fun h => hzero (Option.some.inj h))]
      rfl

theorem keptBy_none : keptBy typ nowMillis (none : Option (StoredEntry StoredMsg)) = none := by
  cases typ <;> rfl

theorem seen_batchEntry_of_remove (e : Option (StoredEntry StoredMsg)) (own : List Write) :
    seen nowMillis (batchEntry typ nowMillis e (own ++ [.remove])) = none ↔
      Agrees typ nowMillis e (own ++ [.remove]) := by
  rw [Agrees, getLast?_concat]
  dsimp only
  generalize hws : own ++ [Write.remove] = ws
  have hany : (ws.any fun w => w.msg.isNone) = true := by simp [← hws, Write.msg]
  cases hlast : (ws.filterMap Write.msg).getLast? with
  | none =>
    -- no value in the batch: no lifetime either
    have hnil := getLast?_eq_none_iff.1 hlast
    have hdurs : ws.filterMap Write.millis = [] := by
      rw [filterMap_eq_nil_iff] at hnil ⊢
      intro w hw
      cases w with
      | remove => rfl
      | store msg millis => exact nomatch hnil _ hw
    rw [batchEntry, hlast, hdurs, if_pos hany]
    exact iff_of_true rfl (Or.inl hnil)
  | some msg =>
    have hne : ws.filterMap Write.msg ≠ [] := by
      rintro hnil
      rw [hnil] at hlast
      exact nomatch hlast
    rw [batchEntry_of_stores hlast, if_pos hany, keptBy_none, Option.or_none]
    by_cases hgone : typ = .redis ∧ 0 ∈ ws.filterMap Write.millis
    · rw [if_pos hgone]
      exact iff_of_true rfl (Or.inr (Or.inr hgone))
    · rw [if_neg hgone, or_iff_right hne, or_iff_left hgone]
      cases (ws.filterMap Write.millis).getLast? with
      | none => simp [seen_forever]
      | some millis => simp [seen_until]

theorem seen_batchEntry_of_store_some (e : Option (StoredEntry StoredMsg)) (own : List Write)
    (msg : StoredMsg) (millis : ℕ) :
    seen nowMillis (batchEntry typ nowMillis e (own ++ [.store msg (some millis)])) =
        seen nowMillis ((Write.store msg (some millis)).toEntry typ nowMillis none) ↔
      Agrees typ nowMillis e (own ++ [.store msg (some millis)]) := by
  rw [Agrees, getLast?_concat, seen_toEntry_store]
  dsimp only
  generalize hws : own ++ [Write.store msg (some millis)] = ws
  have hlast : (ws.filterMap Write.msg).getLast? = some msg := by simp [← hws, Write.msg]
  have hdurs : (ws.filterMap Write.millis).getLast? = some millis := by simp [← hws, Write.millis]
  rw [batchEntry_of_stores hlast, hdurs, Option.map_some, Option.some_or]
  by_cases hgone : typ = .redis ∧ 0 ∈ ws.filterMap Write.millis
  · rw [if_pos hgone]
    simp [seen_none, hgone]
  · rw [if_neg hgone, seen_until]
    simp only [Option.some.injEq, true_iff]
    exact fun htyp hmem => absurd ⟨htyp, hmem⟩ hgone

theorem seen_eq_forever_iff (msg : StoredMsg) (expireAt : Option TimestampMillis) :
    seen nowMillis (some ⟨msg, expireAt⟩) = some ⟨msg, none⟩ ↔ expireAt = none := by
  constructor
  · intro h
    rw [seen, Option.filter_eq_some_iff] at h
    exact congrArg StoredEntry.expireAt (Option.some.inj h.1)
  · rintro rfl
    rfl

/-- Redis and a removal drop the lifetime of the entry before. -/
theorem keptBy_eq_none_iff (e : Option (StoredEntry StoredMsg)) (ws : List Write) :
    keptBy typ nowMillis (if ws.any fun w => w.msg.isNone then none else e) = none ↔
      (typ = .sled → .remove ∉ ws → keptExpireAt nowMillis e = none) := by
  have hany : (ws.any fun w => w.msg.isNone) = true ↔ Write.remove ∈ ws := by
    rw [any_eq_true]
    constructor
    · rintro ⟨_ | _, hw, hmsg⟩
      · exact hw
      · exact nomatch hmsg
    · exact fun hw => ⟨_, hw, rfl⟩
  by_cases hremove : Write.remove ∈ ws
  · rw [if_pos (hany.2 hremove), keptBy_none]
    exact iff_of_true rfl fun _ hnot => absurd hremove hnot
  · rw [if_neg (mt hany.1 hremove)]
    cases typ with
    | redis => exact iff_of_true rfl nofun
    | sled => exact ⟨fun h _ _ => h, fun h => h rfl hremove⟩

theorem seen_batchEntry_of_store_none (e : Option (StoredEntry StoredMsg)) (own : List Write)
    (msg : StoredMsg) :
    seen nowMillis (batchEntry typ nowMillis e (own ++ [.store msg none])) =
        seen nowMillis ((Write.store msg none).toEntry typ nowMillis none) ↔
      Agrees typ nowMillis e (own ++ [.store msg none]) := by
  rw [Agrees, getLast?_concat, seen_toEntry_store]
  dsimp only
  generalize hws : own ++ [Write.store msg none] = ws
  have hlast : (ws.filterMap Write.msg).getLast? = some msg := by simp [← hws, Write.msg]
  rw [batchEntry_of_stores hlast, if_neg (nofun : (none : Option ℕ) ≠ some 0), Option.map_none,
    ← keptBy_eq_none_iff]
  by_cases hgone : typ = .redis ∧ 0 ∈ ws.filterMap Write.millis
  · rw [if_pos hgone, seen_none]
    exact iff_of_false nofun fun h => ne_nil_of_mem hgone.2 h.1
  · rw [if_neg hgone, seen_eq_forever_iff, Option.or_eq_none_iff, Option.map_eq_none_iff,
      getLast?_eq_none_iff]

/-- The batch leaves what the single writes leave exactly if the order of its lists does not matter. -/
theorem seen_batchEntry_iff (e : Option (StoredEntry StoredMsg)) (own : List Write) :
    seen nowMillis (batchEntry typ nowMillis e own) =
        seen nowMillis (own.foldl (Write.toEntry typ nowMillis) e) ↔
      Agrees typ nowMillis e own := by
  rw [foldl_toEntry]
  rcases eq_nil_or_concat own with rfl | ⟨own, w, rfl⟩
  · exact iff_of_true rfl trivial
  · rw [concat_eq_append, getLast?_concat]
    match w with
    | .remove => exact seen_batchEntry_of_remove e own
    | .store msg (some millis) => exact seen_batchEntry_of_store_some e own msg millis
    | .store msg none => exact seen_batchEntry_of_store_none e own msg

end

/-! ## The tree and the storage -/

def inTree (topics : RetainTree (TimedValue Unit)) (topicName : String) : Bool :=
  match Topic.fromStr topicName with
  | .ok topic => (topics.get topic.levels).any fun tv => !tv.isExpired now
  | .error _ => false

def Write.inTree (topicName : String) : Write → Bool
  | .remove => false
  | .store _ millis => (Topic.fromStr topicName).isOk && millis != some 0

/-- A topic that is not written to has to be in the tree exactly if it is stored; one that is written to has
to parse, or not to last. -/
def Backed (s : RetainerInner) (topicName : String) (own : List Write) : Prop :=
  match own.getLast? with
  | none => inTree now s.topics topicName = (seen nowMillis (s.storageDb topicName)).isSome
  | some .remove => True
  | some (.store _ millis) => (Topic.fromStr topicName).isOk ∨ millis = some 0

section

variable {cfg typ now nowMillis}

theorem isExpired_new (millis : Option ℕ) :
    (TimedValue.new () (millis.map fromMillis) now).isExpired now = (millis == some 0) := by
  cases millis with
  | none => rfl
  | some millis =>
    rw [TimedValue.isExpired, TimedValue.new, Option.map_some, Option.map_some, Option.map_some,
      Option.getD_some, fromMillis, Bool.eq_iff_iff]
    simp

variable (topics : RetainTree (TimedValue Unit))

theorem inTree_toTopics_self (topicName : String) (w : Write) :
    inTree now (Write.toTopics now topics (topicName, w)) topicName = w.inTree topicName := by
  rw [inTree]
  cases htopic : Topic.fromStr topicName with
  | error e =>
    cases w with
    | remove => rfl
    | store msg millis =>
      rw [Write.inTree, htopic]
      rfl
  | ok topic =>
    cases w with
    | remove =>
      dsimp only [Write.toTopics, removeTopic]
      rw [htopic]
      dsimp only
      rw [RetainTree.get_remove, if_pos rfl]
      rfl
    | store msg millis =>
      dsimp only [Write.toTopics, insertTopic]
      rw [htopic]
      dsimp only
      rw [RetainTree.get_insert, if_pos rfl, Option.any_some, isExpired_new, Write.inTree, htopic]
      rfl

/-- A write to one topic leaves the others: no two names have the same levels. -/
theorem inTree_toTopics_other {topicName key : String} (w : Write)
    (hne : key ≠ topicName) :
    inTree now (Write.toTopics now topics (key, w)) topicName = inTree now topics topicName := by
  rw [inTree, inTree]
  cases htopic : Topic.fromStr topicName with
  | error e => rfl
  | ok topic =>
    suffices (Write.toTopics now topics (key, w)).get topic.levels = topics.get topic.levels by
      dsimp only
      rw [this]
    cases hkey : Topic.fromStr key with
    | error e =>
      cases w <;>
      · dsimp only [Write.toTopics, removeTopic, insertTopic]
        rw [hkey]
    | ok other =>
      have hlevels : topic.levels ≠ other.levels := fun h =>
        hne (Topic.fromStr_injective htopic hkey h).symm
      cases w with
      | remove =>
        dsimp only [Write.toTopics, removeTopic]
        rw [hkey]
        exact (RetainTree.get_remove ..).trans (if_neg hlevels)
      | store msg millis =>
        dsimp only [Write.toTopics, insertTopic]
        rw [hkey]
        exact (RetainTree.get_insert ..).trans (if_neg hlevels)

theorem inTree_foldl (ws : List (String × Write))
    (topicName : String) :
    inTree now (ws.foldl (Write.toTopics now) topics) topicName =
      match (ofKey topicName ws).getLast? with
      | none => inTree now topics topicName
      | some w => w.inTree topicName := by
  induction ws using List.reverseRecOn with
  | nil => rfl
  | append_singleton ws w ih =>
    obtain ⟨key, w⟩ := w
    rw [foldl_append, foldl_cons, foldl_nil]
    by_cases hkey : key = topicName
    · subst hkey
      rw [inTree_toTopics_self]
      simp [ofKey]
    · rw [inTree_toTopics_other _ _ hkey, ih]
      simp [ofKey, hkey]

/-- What a topic's last write leaves in the storage is in the tree. -/
theorem backed_iff (s : RetainerInner) (ws : List (String × Write)) (topicName : String) :
    inTree now (ws.foldl (Write.toTopics now) s.topics) topicName =
        (seen nowMillis ((ofKey topicName ws).foldl (Write.toEntry typ nowMillis)
          (s.storageDb topicName))).isSome ↔
      Backed now nowMillis s topicName (ofKey topicName ws) := by
  rw [inTree_foldl, foldl_toEntry, Backed]
  generalize (ofKey topicName ws).getLast? = last
  match last with
  | none => exact Iff.rfl
  | some .remove => exact iff_of_true rfl trivial
  | some (.store msg millis) =>
    dsimp only
    rw [seen_toEntry_store, Write.inTree]
    by_cases hzero : millis = some 0
    all_goals simp [hzero]

end

end RetainerInner

end FerroMq
