import FerroMq.Lib.Heap
import FerroMq.Retain.Storage

/-!
# Stored messages in memory

`RamMessageManager`: a message is kept in a map under its id; the id is in a topic tree, below the levels of the
topic, in a heap ordered by expiry time and, once the message has been forwarded, in the map of recipients.
-/

namespace FerroMq

open Lib

/-! ## Messages -/

structure StoredMessage where
  msgId : MsgId
  «from» : From
  publish : Broker.Publish
  expiryTimeAt : TimestampMillis
  deriving DecidableEq

def StoredMessage.isExpiry (self : StoredMessage) (now : TimestampMillis) : Bool :=
  decide (self.expiryTimeAt < now)

/-- What of the serialisation and size libraries the store relies on. -/
structure MessageCodec where
  encode : StoredMessage → Except String Bytes
  decode : Bytes → Except String StoredMessage
  getSize : StoredMessage → ℕ
  decode_encode : ∀ msg bytes, encode msg = .ok bytes → decode bytes = .ok msg

/-- For the plain mode: nothing can be encoded, and the size of a message is that of its payload. -/
def MessageCodec.plain : MessageCodec where
  encode _ := .error ""
  decode _ := .error ""
  getSize msg := msg.publish.inner.payload.length
  decode_encode _ _ h := by cases h

def Topic.push (t : Topic) (level : Level) : Topic := ⟨t.levels ++ [level]⟩

def sizeOfLevel : ℕ := 24

def topicSize (topic : Topic) : ℕ :=
  (topic.levels.map fun
    | .normal s | .metadata s => sizeOfLevel + s.utf8ByteSize
    | _ => sizeOfLevel).sum

structure RamConfig where
  cacheCapacity : ℕ
  cacheMaxCount : ℕ
  encode : Bool

abbrev Expiry := TimestampMillis × MsgId

/-- The greater entry, which the heap gives first: the earlier time and, at one time, the greater id. -/
def Expiry.Precedes (a b : Expiry) : Prop := a.1 < b.1 ∨ a.1 = b.1 ∧ b.2 ≤ a.2

instance : DecidableRel Expiry.Precedes := fun a b =>
  inferInstanceAs (Decidable (a.1 < b.1 ∨ a.1 = b.1 ∧ b.2 ≤ a.2))

instance : Std.Total Expiry.Precedes where
  total a b := by
    rcases lt_trichotomy a.1 b.1 with hlt | heq | hlt
    · exact Or.inl (Or.inl hlt)
    · exact (le_total b.2 a.2).imp (fun hle => Or.inr ⟨heq, hle⟩) fun hle => Or.inr ⟨heq.symm, hle⟩
    · exact Or.inr (Or.inl hlt)

instance : IsTrans Expiry Expiry.Precedes where
  trans a b c := by
    rintro (hab | ⟨hab, hab'⟩) (hbc | ⟨hbc, hbc'⟩)
    · exact Or.inl (hab.trans hbc)
    · exact Or.inl (hab.trans_eq hbc)
    · exact Or.inl (hab.trans_lt hbc)
    · exact Or.inr ⟨hab.trans hbc, hbc'.trans hab'⟩

structure RamMessageManager where
  messages : Map MsgId (StoredMessage × ℕ)
  messagesEncode : Map MsgId (Bytes × ℕ)
  topicTree : RetainTree MsgId
  forwardeds : Map MsgId (Map ClientId (Option (TopicFilter × SharedGroup)))
  expiries : Heap Expiry Expiry.Precedes
  messagesBytesSize : ℤ

namespace RamMessageManager

inductive Msg
  | store («from» : From) (publish : Broker.Publish) (expiryInterval : Nanos) (msgId : MsgId)
      (recipients : Option ForwardedRecipients)
  | markForwarded (msgId : MsgId) (recipients : ForwardedRecipients)

inductive StoreError
  | topic (e : TopicError)
  | encode (e : String)

def new : RamMessageManager := ⟨∅, ∅, Trie.empty, ∅, .empty, 0⟩

variable (cfg : RamConfig) (codec : MessageCodec)

def messagesBytesSizeGet (self : RamMessageManager) : ℕ :=
  if self.messagesBytesSize < 0 then (self.messagesBytesSize + 2 ^ 64).toNat
  else self.messagesBytesSize.toNat

def messagesCount (self : RamMessageManager) : ℕ :=
  if cfg.encode then self.messagesEncode.keys.card else self.messages.keys.card

def messagesExist (self : RamMessageManager) (msgId : MsgId) : Bool :=
  if cfg.encode then (self.messagesEncode.lookup msgId).isSome else (self.messages.lookup msgId).isSome

def messagesGet (self : RamMessageManager) (msgId : MsgId) : Except String (Option StoredMessage) :=
  if cfg.encode then
    match self.messagesEncode.lookup msgId with
    | some (msg, _) => (codec.decode msg).map some
    | none => .ok none
  else .ok ((self.messages.lookup msgId).map Prod.fst)

def messagesRemove (self : RamMessageManager) (msgId : MsgId) :
    RamMessageManager × Except String (Option StoredMessage) :=
  if cfg.encode then
    match self.messagesEncode.lookup msgId with
    | some (msg, msgSize) =>
      ({ self with
          messagesEncode := self.messagesEncode.erase msgId
          messagesBytesSize := self.messagesBytesSize - msgSize }, (codec.decode msg).map some)
    | none => (self, .ok none)
  else
    match self.messages.lookup msgId with
    | some (msg, msgSize) =>
      ({ self with
          messages := self.messages.erase msgId
          messagesBytesSize := self.messagesBytesSize - msgSize }, .ok (some msg))
    | none => (self, .ok none)

/-! ## Storing and marking -/

def setForwardeds (self : RamMessageManager) (msgId : MsgId) (forwardeds : ForwardedRecipients) :
    RamMessageManager :=
  let clientids := (self.forwardeds.lookup msgId).getD ∅
  { self with
    forwardeds := self.forwardeds.insert msgId
      (forwardeds.foldl (fun clientids (clientId, opts) => clientids.insert clientId opts) clientids) }

def withId (topic : Topic) (msgId : MsgId) : Topic := topic.push (.normal (toString msgId))

/-- `size_of::<MsgID>() * 2 + size_of::<(Reverse<TimestampMillis>, MsgID)>()` and the topic. -/
def overhead (topic : Topic) : ℕ := topicSize topic + 8 * 2 + 16

/-- What `_set` does besides writing the message, in this order: the number of bytes, the tree, the heap and
the recipients. -/
def register (self : RamMessageManager) (msgId : MsgId) (msgLen : ℕ) (topic : Topic)
    (expiryTimeAt : TimestampMillis) (forwardeds : Option ForwardedRecipients) : RamMessageManager :=
  let self := { self with
    messagesBytesSize := self.messagesBytesSize + msgLen
    topicTree := self.topicTree.insert topic msgId
    expiries := self.expiries.push (expiryTimeAt, msgId) }
  match forwardeds with
  | some forwardeds => self.setForwardeds msgId forwardeds
  | none => self

def set (self : RamMessageManager) («from» : From) (publish : Broker.Publish) (expiryInterval : Nanos)
    (msgId : MsgId) (forwardeds : Option ForwardedRecipients) (now : TimestampMillis) :
    RamMessageManager × Except StoreError Unit :=
  match Topic.fromStr publish.inner.topic with
  | .error e => (self, .error (.topic e))
  | .ok topic =>
    let topic := withId topic msgId
    let expiryTimeAt := now + ((expiryInterval / 10 ^ 6 : ℕ) : ℤ)
    let msg : StoredMessage := { msgId, «from», publish, expiryTimeAt }
    if cfg.encode then
      match codec.encode msg with
      | .error e => (self, .error (.encode e))
      | .ok bytes =>
        let msgLen := bytes.length + overhead topic
        let self := { self with messagesEncode := self.messagesEncode.insert msgId (bytes, msgLen) }
        (self.register msgId msgLen topic expiryTimeAt forwardeds, .ok ())
    else
      let msgLen := codec.getSize msg + overhead topic
      let self := { self with messages := self.messages.insert msgId (msg, msgLen) }
      (self.register msgId msgLen topic expiryTimeAt forwardeds, .ok ())

def process (self : RamMessageManager) (msg : Msg) (now : TimestampMillis) : RamMessageManager :=
  match msg with
  | .store «from» publish expiryInterval msgId recipients =>
    (self.set cfg codec «from» publish expiryInterval msgId recipients now).1
  | .markForwarded msgId recipients =>
    if self.messagesExist cfg msgId then self.setForwardeds msgId recipients else self

/-! ## Removing -/

def exceeds (self : RamMessageManager) : Bool :=
  decide (self.messagesCount cfg > cfg.cacheMaxCount) ||
    decide (self.messagesBytesSizeGet > cfg.cacheCapacity)

def takeExpired (self : RamMessageManager) (maxLimit : ℕ) (now : TimestampMillis) (removeds : List MsgId)
    (e : Expiry) : Option (List MsgId) :=
  if removeds.length > maxLimit then none
  else if e.1 > now && !self.exceeds cfg then none
  else some (removeds ++ [e.2])

def removeMessage (self : RamMessageManager) (msgId : MsgId) : RamMessageManager × Except TopicError Unit :=
  match self.messagesRemove cfg codec msgId with
  | (self, .ok (some msg)) =>
    match Topic.fromStr msg.publish.inner.topic with
    | .error e => (self, .error e)
    | .ok topic =>
      ({ self with
          topicTree := (self.topicTree.remove (withId topic msgId)).1
          forwardeds := self.forwardeds.erase msgId }, .ok ())
  | (self, _) => (self, .ok ())

def removeMessages (self : RamMessageManager) : List MsgId → RamMessageManager × Except TopicError Unit
  | [] => (self, .ok ())
  | msgId :: msgIds =>
    match self.removeMessage cfg codec msgId with
    | (self, .ok ()) => removeMessages self msgIds
    | (self, .error e) => (self, .error e)

def removedMsgIds (self : RamMessageManager) (maxLimit : ℕ) (now : TimestampMillis) : List MsgId :=
  (self.expiries.drain (self.takeExpired cfg maxLimit now) []).1

def removeExpiredMessages (self : RamMessageManager) (maxLimit : ℕ) (now : TimestampMillis) :
    RamMessageManager × Except TopicError ℕ :=
  let (removedMsgIds, expiries) := self.expiries.drain (self.takeExpired cfg maxLimit now) []
  match removeMessages cfg codec { self with expiries } removedMsgIds with
  | (self, .ok ()) => (self, .ok removedMsgIds.length)
  | (self, .error e) => (self, .error e)

/-! ## Looking up -/

def isForwarded (self : RamMessageManager) (clientId : ClientId) (topicFilter : TopicFilter)
    (group : Option SharedGroup) (msgId : MsgId) : Bool :=
  (self.forwardeds.lookup msgId).any fun cids =>
    (cids.lookup clientId).isSome ||
      group.any fun group => decide (∃ cid ∈ cids.keys, cids.lookup cid = some (some (topicFilter, group)))

def getOne (self : RamMessageManager) (clientId : ClientId) (topicFilter : TopicFilter)
    (group : Option SharedGroup) (now : TimestampMillis) (msgId : MsgId) :
    Option (MsgId × From × Broker.Publish) :=
  match self.messagesGet cfg codec msgId with
  | .ok (some msg) =>
    if self.isForwarded clientId topicFilter group msgId || msg.isExpiry now ||
        msg.publish.targetClientid.any (fun tCid => decide (tCid ≠ clientId)) then none
    else some (msgId, msg.from, msg.publish)
  | _ => none

/-- A filter that does not end in `#` has one more level for the id. -/
def lookupTopic (topic : Topic) : Topic :=
  if topic.levels.getLast? = some .multiWildcard then topic else topic.push .singleWildcard

def get (self : RamMessageManager) (clientId : ClientId) (topicFilter : TopicFilter)
    (group : Option SharedGroup) (now : TimestampMillis) :
    Except TopicError (List (MsgId × From × Broker.Publish)) := do
  let topic ← Topic.fromStr topicFilter
  let msgIds := (self.topicTree.matches (lookupTopic topic)).map Prod.snd
  .ok (msgIds.filterMap (self.getOne cfg codec clientId topicFilter group now))

end RamMessageManager

end FerroMq
