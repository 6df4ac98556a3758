import FerroMq.Message.Ram

/-!
# The indexes of the message store

The map of messages, the topic tree, the expiry heap and the map of recipients are updated one after the other.
`Indexed` says how they belong together, with the ids that a clean-up has taken from the heap still to be
removed from the rest (`Run.consistent`).
-/

namespace FerroMq

open Lib List

namespace RamMessageManager

variable (cfg : RamConfig) (codec : MessageCodec)

/-! ## One view of both modes -/

def entry (s : RamMessageManager) (msgId : MsgId) : Option (Except String StoredMessage × ℕ) :=
  if cfg.encode then (s.messagesEncode.lookup msgId).map fun e => (codec.decode e.1, e.2)
  else (s.messages.lookup msgId).map fun e => (.ok e.1, e.2)

def total (s : RamMessageManager) : ℕ :=
  if cfg.encode then Map.sum s.messagesEncode Prod.snd else Map.sum s.messages Prod.snd

section

variable {cfg codec} {s base : RamMessageManager}

theorem messagesExist_eq (codec : MessageCodec) (msgId : MsgId) :
    s.messagesExist cfg msgId = (s.entry cfg codec msgId).isSome := by
  unfold messagesExist entry
  split_ifs <;> rw [Option.isSome_map]

theorem messagesGet_eq (msgId : MsgId) :
    s.messagesGet cfg codec msgId =
      match s.entry cfg codec msgId with
      | some (msg, _) => msg.map some
      | none => .ok none := by
  unfold messagesGet entry
  split_ifs
  · cases s.messagesEncode.lookup msgId <;> rfl
  · cases s.messages.lookup msgId <;> rfl

variable (cfg codec s base) in
/-- `base` has one message more than `s`, or another one under its id, and is the same otherwise. -/
structure Puts (msgId : MsgId) (msg : StoredMessage) (msgLen : ℕ) : Prop where
  entry : ∀ id, base.entry cfg codec id =
    if id = msgId then some (.ok msg, msgLen) else s.entry cfg codec id
  total : s.entry cfg codec msgId = none → base.total cfg = s.total cfg + msgLen
  topicTree : base.topicTree = s.topicTree
  forwardeds : base.forwardeds = s.forwardeds
  expiries : base.expiries = s.expiries
  messagesBytesSize : base.messagesBytesSize = s.messagesBytesSize

variable {msg : StoredMessage} {msgSize msgLen : ℕ} {topic : Topic} {id : MsgId} {path : List Level}

theorem puts_encode (henc : cfg.encode = true) {msgId : MsgId} {bytes : Bytes}
    (hbytes : codec.encode msg = .ok bytes) (msgLen : ℕ) :
    Puts cfg codec s { s with messagesEncode := s.messagesEncode.insert msgId (bytes, msgLen) }
      msgId msg msgLen where
  entry id := by
    unfold RamMessageManager.entry
    rw [if_pos henc, if_pos henc, Map.lookup_insert']
    split_ifs
    · rw [Option.map_some, codec.decode_encode msg bytes hbytes]
    · rfl
  total hnone := by
    unfold RamMessageManager.entry at hnone
    rw [if_pos henc, Option.map_eq_none_iff] at hnone
    unfold RamMessageManager.total
    rw [if_pos henc, if_pos henc, Map.sum_insert, Map.sum_eq_add_erase s.messagesEncode _ msgId, hnone]
    simp [Nat.add_comm]
  topicTree := rfl
  forwardeds := rfl
  expiries := rfl
  messagesBytesSize := rfl

theorem puts_plain (henc : ¬ cfg.encode = true) (msgId : MsgId) (msg : StoredMessage) (msgLen : ℕ) :
    Puts cfg codec s { s with messages := s.messages.insert msgId (msg, msgLen) }
      msgId msg msgLen where
  entry id := by
    unfold RamMessageManager.entry
    rw [if_neg henc, if_neg henc, Map.lookup_insert']
    split_ifs <;> rfl
  total hnone := by
    unfold RamMessageManager.entry at hnone
    rw [if_neg henc, Option.map_eq_none_iff] at hnone
    unfold RamMessageManager.total
    rw [if_neg henc, if_neg henc, Map.sum_insert, Map.sum_eq_add_erase s.messages _ msgId, hnone]
    simp [Nat.add_comm]
  topicTree := rfl
  forwardeds := rfl
  expiries := rfl
  messagesBytesSize := rfl

variable (cfg codec) in
def accepted («from» : From) (publish : Broker.Publish) (expiryInterval : Nanos) (msgId : MsgId)
    (now : TimestampMillis) : Option (Topic × StoredMessage) :=
  let msg : StoredMessage :=
    { msgId, «from», publish, expiryTimeAt := now + ((expiryInterval / 10 ^ 6 : ℕ) : ℤ) }
  match Topic.fromStr publish.inner.topic with
  | .error _ => none
  | .ok topic => if cfg.encode && !(codec.encode msg).isOk then none else some (topic, msg)

variable {«from» : From} {publish : Broker.Publish} {expiryInterval : Nanos} {msgId : MsgId}
  {now : TimestampMillis}

/-- `_set` does nothing to a message that is not accepted, and stores and registers one that is. -/
theorem set_cases (forwardeds : Option ForwardedRecipients) :
    (accepted cfg codec «from» publish expiryInterval msgId now = none ∧
      (s.set cfg codec «from» publish expiryInterval msgId forwardeds now).1 = s) ∨
    ∃ topic msg msgLen base,
      accepted cfg codec «from» publish expiryInterval msgId now = some (topic, msg) ∧
      Topic.fromStr publish.inner.topic = .ok topic ∧ msg.publish = publish ∧
      Puts cfg codec s base msgId msg msgLen ∧
      (s.set cfg codec «from» publish expiryInterval msgId forwardeds now).1 =
        base.register msgId msgLen (withId topic msgId) msg.expiryTimeAt forwardeds := by
  unfold accepted set
  dsimp only
  cases htopic : Topic.fromStr publish.inner.topic with
  | error e => exact .inl ⟨rfl, rfl⟩
  | ok topic =>
    dsimp only
    by_cases henc : cfg.encode = true
    swap
    · rw [if_neg henc, if_neg fun h => henc (Bool.and_eq_true _ _ ▸ h).1]
      exact .inr ⟨topic, _, _, _, rfl, rfl, rfl, puts_plain henc msgId _ _, rfl⟩
    rw [if_pos henc, henc, Bool.true_and]
    generalize hmsg : StoredMessage.mk msgId «from» publish (now + ((expiryInterval / 10 ^ 6 : ℕ) : ℤ)) = msg
    cases hbytes : codec.encode msg with
    | error e => exact .inl ⟨rfl, rfl⟩
    | ok bytes =>
      subst hmsg
      exact .inr ⟨topic, _, _, _, rfl, rfl, rfl, puts_encode henc hbytes _, rfl⟩

variable (cfg codec s base) in
/-- `base` is `s` without the message of an id. -/
structure Drops (msgId : MsgId) (msgSize : ℕ) : Prop where
  entry : ∀ id, base.entry cfg codec id = if id = msgId then none else s.entry cfg codec id
  total : base.total cfg + msgSize = s.total cfg
  messagesCount : base.messagesCount cfg + 1 = s.messagesCount cfg
  messagesBytesSize : base.messagesBytesSize = s.messagesBytesSize - msgSize
  topicTree : base.topicTree = s.topicTree
  forwardeds : base.forwardeds = s.forwardeds
  expiries : base.expiries = s.expiries

theorem drops_encode (henc : cfg.encode = true) {bytes : Bytes}
    (hlookup : s.messagesEncode.lookup msgId = some (bytes, msgSize)) : Drops cfg codec s { s with
      messagesEncode := s.messagesEncode.erase msgId
      messagesBytesSize := s.messagesBytesSize - msgSize } msgId msgSize where
  entry id := by
    unfold RamMessageManager.entry
    rw [if_pos henc, if_pos henc, Map.lookup_erase']
    split_ifs <;> rfl
  total := by
    unfold RamMessageManager.total
    rw [if_pos henc, if_pos henc, Map.sum_eq_add_erase s.messagesEncode _ msgId, hlookup, Nat.add_comm]
    rfl
  messagesCount := by
    unfold RamMessageManager.messagesCount
    rw [if_pos henc, if_pos henc, Map.card_keys_erase hlookup]
  messagesBytesSize := rfl
  topicTree := rfl
  forwardeds := rfl
  expiries := rfl

theorem drops_plain (henc : ¬ cfg.encode = true) (hlookup : s.messages.lookup msgId = some (msg, msgSize)) :
    Drops cfg codec s { s with
      messages := s.messages.erase msgId
      messagesBytesSize := s.messagesBytesSize - msgSize } msgId msgSize where
  entry id := by
    unfold RamMessageManager.entry
    rw [if_neg henc, if_neg henc, Map.lookup_erase']
    split_ifs <;> rfl
  total := by
    unfold RamMessageManager.total
    rw [if_neg henc, if_neg henc, Map.sum_eq_add_erase s.messages _ msgId, hlookup, Nat.add_comm]
    rfl
  messagesCount := by
    unfold RamMessageManager.messagesCount
    rw [if_neg henc, if_neg henc, Map.card_keys_erase hlookup]
  messagesBytesSize := rfl
  topicTree := rfl
  forwardeds := rfl
  expiries := rfl

theorem exists_messagesRemove_eq {e : Except String StoredMessage}
    (h : s.entry cfg codec msgId = some (e, msgSize)) : ∃ base, Drops cfg codec s base msgId msgSize ∧
      s.messagesRemove cfg codec msgId = (base, e.map some) := by
  unfold RamMessageManager.entry at h
  unfold messagesRemove
  split_ifs at h ⊢ with henc
  · obtain ⟨⟨bytes, size⟩, hlookup, heq⟩ := Option.map_eq_some_iff.1 h
    cases heq
    rw [hlookup]
    exact ⟨_, drops_encode henc hlookup, rfl⟩
  · obtain ⟨⟨msg, size⟩, hlookup, heq⟩ := Option.map_eq_some_iff.1 h
    cases heq
    rw [hlookup]
    exact ⟨_, drops_plain henc hlookup, rfl⟩

/-! ## What the indexes have to do with each other -/

variable (cfg codec s) in
def IsFiled (path : List Level) (id : MsgId) : Prop :=
  ∃ msg size topic, s.entry cfg codec id = some (.ok msg, size) ∧
    Topic.fromStr msg.publish.inner.topic = .ok topic ∧ path = (withId topic id).levels

variable (cfg codec s) in
/-- The indexes have the same messages, those of the heap being the ones listed. -/
structure Indexed (expiries : List Expiry) : Prop where
  readable : ∀ id e, s.entry cfg codec id = some e →
    ∃ msg topic, e.1 = .ok msg ∧ Topic.fromStr msg.publish.inner.topic = .ok topic
  wf : Trie.Wf (fun _ => True) s.topicTree
  tree : ∀ path id, s.topicTree.get path = some id ↔ IsFiled cfg codec s path id
  expiry : ∀ e : Expiry, e ∈ expiries ↔
    ∃ msg size, s.entry cfg codec e.2 = some (.ok msg, size) ∧ msg.expiryTimeAt = e.1
  nodup : (expiries.map Prod.snd).Nodup
  forwarded : ∀ id ∈ s.forwardeds.keys, (s.entry cfg codec id).isSome
  bytes : s.messagesBytesSize = s.total cfg

variable (cfg codec s) in
def Consistent : Prop := Indexed cfg codec s s.expiries.items

theorem entry_new (id : MsgId) : new.entry cfg codec id = none := by
  unfold RamMessageManager.entry
  split_ifs <;> rfl

theorem consistent_new : Consistent cfg codec new := by
  refine ⟨fun id e h => ?_, Trie.wf_empty _, fun path id => ?_, fun e => ?_, nodup_nil,
    fun id h => ?_, ?_⟩
  · exact nomatch (entry_new id).symm.trans h
  · rw [new, Trie.get_empty]
    refine iff_of_false nofun ?_
    rintro ⟨msg, size, topic, h, -⟩
    exact nomatch (entry_new id).symm.trans h
  · refine iff_of_false nofun ?_
    rintro ⟨msg, size, h, -⟩
    exact nomatch (entry_new e.2).symm.trans h
  · exact absurd h (Finset.notMem_empty id)
  · unfold RamMessageManager.total
    split_ifs <;> rfl

theorem withId_injective {topic' : Topic} {id' : MsgId}
    (h : (withId topic id).levels = (withId topic' id').levels) : id = id' := by
  have hlast := (append_inj' h rfl).2
  exact Nat.repr_inj.1 (Level.normal.inj (List.cons.inj hlast).1)

/-! ## Storing and marking -/

theorem Indexed.setForwardeds {expiries : List Expiry} (h : Indexed cfg codec s expiries)
    (hid : (s.entry cfg codec msgId).isSome) (forwardeds : ForwardedRecipients) :
    Indexed cfg codec (s.setForwardeds msgId forwardeds) expiries :=
  { h with
    forwarded := fun id hmem => by
      rw [RamMessageManager.setForwardeds, Map.keys_insert, Finset.mem_insert] at hmem
      rcases hmem with rfl | hmem
      · exact hid
      · exact h.forwarded id hmem }

theorem IsFiled.entry_ne_none (h : IsFiled cfg codec s path id) : s.entry cfg codec id ≠ none := by
  obtain ⟨msg, size, topic, hentry, -⟩ := h
  rw [hentry]
  exact nofun

theorem Indexed.entry_ne_none {expiries : List Expiry} (h : Indexed cfg codec s expiries)
    (hid : msgId ∈ expiries.map Prod.snd) : s.entry cfg codec msgId ≠ none := by
  obtain ⟨e, he, rfl⟩ := mem_map.1 hid
  obtain ⟨msg, size, hentry, -⟩ := (h.expiry e).1 he
  rw [hentry]
  exact nofun

theorem Puts.isFiled_iff (hput : Puts cfg codec s base msgId msg msgLen)
    (htopic : Topic.fromStr msg.publish.inner.topic = .ok topic) :
    IsFiled cfg codec base path id ↔
      id = msgId ∧ path = (withId topic msgId).levels ∨ id ≠ msgId ∧ IsFiled cfg codec s path id := by
  unfold IsFiled
  rw [hput.entry]
  by_cases hid : id = msgId
  · subst hid
    simp only [if_pos, Option.some.injEq, Prod.mk.injEq, Except.ok.injEq, true_and, ne_eq, not_true_eq_false,
      false_and, or_false]
    constructor
    · rintro ⟨msg', size, topic', ⟨rfl, rfl⟩, htopic', hpath⟩
      cases htopic.symm.trans htopic'
      exact hpath
    · exact fun hpath => ⟨msg, msgLen, topic, ⟨rfl, rfl⟩, htopic, hpath⟩
  · simp [hid]

/-- A message with a new id is entered into all indexes. -/
theorem Consistent.put (h : Consistent cfg codec s) (hfresh : s.entry cfg codec msgId = none)
    (hput : Puts cfg codec s base msgId msg msgLen)
    (htopic : Topic.fromStr msg.publish.inner.topic = .ok topic) : Consistent cfg codec
      (base.register msgId msgLen (withId topic msgId) msg.expiryTimeAt none) := by
  have hnew : msgId ∉ s.expiries.items.map Prod.snd := fun hmem => h.entry_ne_none hmem hfresh
  refine ⟨fun id e he => ?_, ?_, fun path id => ?_, fun e => ?_, ?_, fun id hid => ?_, ?_⟩
  · change base.entry cfg codec id = some e at he
    rw [hput.entry] at he
    split_ifs at he
    · cases he
      exact ⟨msg, topic, rfl, htopic⟩
    · exact h.readable id e he
  · change Trie.Wf _ (base.topicTree.insert _ _)
    rw [hput.topicTree]
    exact h.wf.upsert _ fun _ _ => trivial
  · change (base.topicTree.insert _ _).get path = some id ↔ IsFiled cfg codec base path id
    rw [RetainTree.get_insert, hput.isFiled_iff htopic, hput.topicTree]
    split_ifs with hpath
    · constructor
      · rintro ⟨⟩
        exact Or.inl ⟨rfl, hpath⟩
      · rintro (⟨rfl, -⟩ | ⟨hid, msg', size, topic', -, -, hpath'⟩)
        · rfl
        · exact absurd (withId_injective (hpath'.symm.trans hpath)) hid
    · rw [h.tree]
      constructor
      · intro hfiled
        refine Or.inr ⟨?_, hfiled⟩
        rintro rfl
        exact hfiled.entry_ne_none hfresh
      · rintro (⟨-, hpath'⟩ | ⟨-, hfiled⟩)
        · exact absurd hpath' hpath
        · exact hfiled
  · change e ∈ (base.expiries.push _).items ↔ ∃ msg size, base.entry cfg codec e.2 = _ ∧ _
    rw [Heap.mem_push, hput.expiries, hput.entry, h.expiry]
    split_ifs with hid
    · constructor
      · rintro (rfl | ⟨msg', size, hentry, -⟩)
        · exact ⟨msg, msgLen, rfl, rfl⟩
        · rw [hid, hfresh] at hentry
          exact nomatch hentry
      · rintro ⟨msg', size, heq, htime⟩
        cases heq
        exact Or.inl (Prod.ext htime.symm hid)
    · rw [or_iff_right]
      rintro rfl
      exact hid rfl
  · change ((base.expiries.push _).items.map Prod.snd).Nodup
    rw [hput.expiries, ((s.expiries.push_perm _).map Prod.snd).nodup_iff]
    exact nodup_cons.2 ⟨hnew, h.nodup⟩
  · change (base.entry cfg codec id).isSome
    rw [hput.entry]
    split_ifs
    · rfl
    · exact h.forwarded id (hput.forwardeds ▸ hid)
  · change base.messagesBytesSize + (msgLen : ℤ) = (base.total cfg : ℤ)
    rw [hput.total hfresh, hput.messagesBytesSize, h.bytes]
    push_cast
    rfl

/-! ## Removing -/

variable (cfg codec s) in
def size (id : MsgId) : ℕ := ((s.entry cfg codec id).map Prod.snd).getD 0

variable (cfg codec s) in
/-- `s'` is `s` without the messages of these ids. -/
structure Removed (s' : RamMessageManager) (ids : List MsgId) : Prop where
  entry : ∀ id, s'.entry cfg codec id = if id ∈ ids then none else s.entry cfg codec id
  count : s'.messagesCount cfg + ids.length = s.messagesCount cfg
  total : s'.total cfg + (ids.map (size cfg codec s)).sum = s.total cfg

theorem Drops.isFiled_iff (hdrop : Drops cfg codec s base msgId msgSize) :
    IsFiled cfg codec base path id ↔ id ≠ msgId ∧ IsFiled cfg codec s path id := by
  unfold IsFiled
  rw [hdrop.entry]
  by_cases hid : id = msgId
  all_goals simp [hid]

theorem Indexed.exists_removeMessage {e : Expiry} {rest : List Expiry}
    (h : Indexed cfg codec s (e :: rest)) :
    ∃ s', s.removeMessage cfg codec e.2 = (s', .ok ()) ∧ Indexed cfg codec s' rest ∧
      Removed cfg codec s s' [e.2] ∧ s'.expiries = s.expiries := by
  obtain ⟨msg, msgSize, hentry, -⟩ := (h.expiry e).1 mem_cons_self
  obtain ⟨msg', topic, hmsg, htopic⟩ := h.readable _ _ hentry
  cases hmsg
  obtain ⟨base, hdrop, heq⟩ := exists_messagesRemove_eq hentry
  have hfst : ∀ e' ∈ rest, e'.2 ≠ e.2 := fun e' he' heq' =>
    (nodup_cons.1 h.nodup).1 (mem_map.2 ⟨e', he', heq'⟩)
  refine ⟨{ base with
      topicTree := (base.topicTree.remove (withId topic e.2)).1
      forwardeds := base.forwardeds.erase e.2 }, ?_, ?_, ?_, hdrop.expiries⟩
  · rw [removeMessage, heq]
    dsimp only [Except.map]
    rw [htopic]
  · refine ⟨fun id e' he' => ?_, ?_, fun path id => ?_, fun e' => ?_, (nodup_cons.1 h.nodup).2,
      fun id hid => ?_, ?_⟩
    · change base.entry cfg codec id = some e' at he'
      rw [hdrop.entry] at he'
      split_ifs at he'
      exact h.readable id e' he'
    · dsimp only
      rw [hdrop.topicTree]
      exact h.wf.prune _ _ _
    · change (base.topicTree.remove _).1.get path = some id ↔ IsFiled cfg codec base path id
      rw [RetainTree.get_remove, hdrop.isFiled_iff, hdrop.topicTree]
      split_ifs with hpath
      · refine iff_of_false nofun ?_
        rintro ⟨hid, _, _, _, -, -, hpath'⟩
        exact hid (withId_injective (hpath'.symm.trans hpath))
      · rw [h.tree]
        refine ⟨fun hfiled => ⟨?_, hfiled⟩, fun hfiled => hfiled.2⟩
        rintro rfl
        obtain ⟨msg', size', topic', hentry', htopic', hpath'⟩ := hfiled
        cases hentry.symm.trans hentry'
        cases htopic.symm.trans htopic'
        exact hpath hpath'
    · change e' ∈ rest ↔ ∃ msg size, base.entry cfg codec e'.2 = _ ∧ _
      rw [hdrop.entry]
      constructor
      · intro he'
        rw [if_neg (hfst e' he')]
        exact (h.expiry e').1 (mem_cons_of_mem _ he')
      · split_ifs with hid
        · rintro ⟨_, _, hnone, -⟩
          exact nomatch hnone
        · intro hfound
          refine (mem_cons.1 ((h.expiry e').2 hfound)).resolve_left ?_
          rintro rfl
          exact hid rfl
    · change id ∈ (base.forwardeds.erase e.2).keys at hid
      change (base.entry cfg codec id).isSome
      rw [Finmap.keys_erase, Finset.mem_erase, hdrop.forwardeds] at hid
      rw [hdrop.entry, if_neg hid.1]
      exact h.forwarded id hid.2
    · change base.messagesBytesSize = (base.total cfg : ℤ)
      have htotal := hdrop.total
      rw [hdrop.messagesBytesSize, h.bytes]
      omega
  · refine ⟨fun id => ?_, hdrop.messagesCount, ?_⟩
    · change base.entry cfg codec id = _
      rw [hdrop.entry, if_congr mem_singleton.symm rfl rfl]
    · rw [map_singleton, sum_singleton, size, hentry]
      exact hdrop.total

theorem Removed.cons {s' s'' : RamMessageManager} {ids : List MsgId}
    (h : Removed cfg codec s s' [id]) (h' : Removed cfg codec s' s'' ids) (hid : id ∉ ids) :
    Removed cfg codec s s'' (id :: ids) where
  entry id' := by
    rw [h'.entry, h.entry]
    simp only [mem_cons, not_mem_nil, or_false]
    by_cases hmem : id' ∈ ids <;> by_cases heq : id' = id <;> simp [hmem, heq]
  count := by
    have hcount := h.count
    have hcount' := h'.count
    rw [length_singleton] at hcount
    rw [length_cons]
    omega
  total := by
    have hsizes : ids.map (size cfg codec s') = ids.map (size cfg codec s) := by
      refine map_congr_left fun id' hid' => ?_
      rw [size, size, h.entry, if_neg]
      rw [mem_singleton]
      rintro rfl
      exact hid hid'
    have htotal := h.total
    have htotal' := h'.total
    rw [hsizes] at htotal'
    rw [map_singleton, sum_singleton] at htotal
    rw [map_cons, sum_cons]
    omega

theorem Indexed.exists_removeMessages (taken : List Expiry) {rest : List Expiry}
    (h : Indexed cfg codec s (taken ++ rest)) :
    ∃ s', s.removeMessages cfg codec (taken.map Prod.snd) = (s', .ok ()) ∧ Indexed cfg codec s' rest ∧
      Removed cfg codec s s' (taken.map Prod.snd) ∧ s'.expiries = s.expiries := by
  induction taken generalizing s with
  | nil => exact ⟨s, rfl, h, ⟨fun _ => rfl, rfl, rfl⟩, rfl⟩
  | cons e taken ih =>
    rw [cons_append] at h
    obtain ⟨s', heq, h', hremoved, hexpiries⟩ := h.exists_removeMessage
    obtain ⟨s'', heq', h'', hremoved', hexpiries'⟩ := ih h'
    refine ⟨s'', ?_, h'', hremoved.cons hremoved' fun hmem => ?_, hexpiries'.trans hexpiries⟩
    · rw [map_cons, removeMessages, heq]
      exact heq'
    · refine (nodup_cons.1 h.nodup).1 ?_
      rw [map_append]
      exact mem_append_left _ hmem

variable (cfg s now) in
def isDue (e : Expiry) : Bool := decide (e.1 ≤ now) || s.exceeds cfg

variable (cfg s now) in
/-- The entries that a clean-up takes from the heap. -/
def taken (maxLimit : ℕ) : List Expiry :=
  (s.expiries.items.takeWhile (s.isDue cfg now)).take (maxLimit + 1)

variable (maxLimit : ℕ)

theorem drainItems_takeExpired (removeds : List MsgId) (items : List Expiry) :
    Heap.drainItems (s.takeExpired cfg maxLimit now) removeds items =
      let taken := (items.takeWhile (s.isDue cfg now)).take (maxLimit + 1 - removeds.length)
      (removeds ++ taken.map Prod.snd, items.drop taken.length) := by
  induction items generalizing removeds with
  | nil => simp [Heap.drainItems]
  | cons e items ih =>
    rw [Heap.drainItems, takeExpired, takeWhile_cons]
    by_cases hfull : removeds.length > maxLimit
    · rw [if_pos hfull, Nat.sub_eq_zero_of_le hfull]
      simp
    · rw [if_neg hfull]
      cases hdue : s.isDue cfg now e with
      | false =>
        rw [isDue, Bool.or_eq_false_iff, decide_eq_false_iff_not, not_le] at hdue
        rw [if_pos (by simp [hdue])]
        simp
      | true =>
        rw [if_neg]
        · dsimp only
          rw [ih, length_append, length_singleton, if_pos rfl,
            show maxLimit + 1 - removeds.length = (maxLimit + 1 - (removeds.length + 1)) + 1 by omega]
          simp
        · intro hstop
          rw [isDue, Bool.or_eq_true, decide_eq_true_eq] at hdue
          simp only [Bool.and_eq_true, decide_eq_true_eq, Bool.not_eq_true'] at hstop
          rcases hdue with hdue | hdue
          · exact absurd hstop.1 (not_lt.2 hdue)
          · rw [hstop.2] at hdue
            cases hdue

theorem removedMsgIds_eq :
    s.removedMsgIds cfg maxLimit now = (taken cfg s now maxLimit).map Prod.snd := by
  rw [removedMsgIds, Heap.drain_fst, drainItems_takeExpired]
  rfl

theorem items_drain_takeExpired :
    (s.expiries.drain (s.takeExpired cfg maxLimit now) []).2.items =
      s.expiries.items.drop (taken cfg s now maxLimit).length := by
  rw [Heap.items_drain_snd, drainItems_takeExpired]
  rfl

theorem taken_append_drop :
    taken cfg s now maxLimit ++ s.expiries.items.drop (taken cfg s now maxLimit).length =
      s.expiries.items :=
  prefix_iff_eq_append.1 ((List.take_prefix _ _).trans (List.takeWhile_prefix _))

theorem Consistent.exists_removeExpired (h : Consistent cfg codec s) (maxLimit : ℕ)
    (now : TimestampMillis) :
    ∃ s', s.removeExpiredMessages cfg codec maxLimit now = (s', .ok (taken cfg s now maxLimit).length) ∧
      Consistent cfg codec s' ∧ Removed cfg codec s s' ((taken cfg s now maxLimit).map Prod.snd) := by
  -- the heap is written back before the messages are removed
  let s₁ : RamMessageManager :=
    { s with expiries := (s.expiries.drain (s.takeExpired cfg maxLimit now) []).2 }
  have h₁ : Indexed cfg codec s₁
      (taken cfg s now maxLimit ++ s.expiries.items.drop (taken cfg s now maxLimit).length) := by
    rw [taken_append_drop]
    exact { h with }
  obtain ⟨s', heq, h', hremoved, hexpiries⟩ := h₁.exists_removeMessages
  rw [← removedMsgIds_eq, removedMsgIds] at heq
  refine ⟨s', ?_, ?_, ⟨hremoved.entry, hremoved.count, hremoved.total⟩⟩
  · rw [← length_map Prod.snd, ← removedMsgIds_eq, removeExpiredMessages]
    dsimp only
    rw [heq]
    rfl
  · rw [Consistent, hexpiries, items_drain_takeExpired]
    exact h'

/-! ## Runs -/

/-- One message from the queue, or one clean-up. -/
inductive Step
  | process (msg : Msg) (now : TimestampMillis)
  | removeExpired (maxLimit : ℕ) (now : TimestampMillis)

variable (cfg codec) in
def step (s : RamMessageManager) : Step → RamMessageManager
  | .process msg now => s.process cfg codec msg now
  | .removeExpired maxLimit now => (s.removeExpiredMessages cfg codec maxLimit now).1

def Step.storedId : Step → Option MsgId
  | .process (.store _ _ _ msgId _) _ => some msgId
  | _ => none

variable (cfg codec) in
/-- The states that a list of steps leads to, with the branches of the topic tree in any order. -/
inductive Run : List Step → RamMessageManager → Prop
  | new : Run [] new
  | step {steps s} (a : Step) : Run steps s → Run (steps ++ [a]) (s.step cfg codec a)
  | reorder {steps s tree} : Run steps s → RetainTree.Reorder s.topicTree tree →
      Run steps { s with topicTree := tree }

theorem Consistent.register (h : Consistent cfg codec s) (hfresh : s.entry cfg codec msgId = none)
    (hput : Puts cfg codec s base msgId msg msgLen)
    (htopic : Topic.fromStr msg.publish.inner.topic = .ok topic) (forwardeds : Option ForwardedRecipients) :
    Consistent cfg codec (base.register msgId msgLen (withId topic msgId) msg.expiryTimeAt forwardeds) := by
  have hnone := h.put hfresh hput htopic
  cases forwardeds with
  | none => exact hnone
  | some forwardeds =>
    refine Indexed.setForwardeds hnone ?_ forwardeds
    change (base.entry cfg codec msgId).isSome
    rw [hput.entry, if_pos rfl]
    rfl

theorem entry_register (msgLen : ℕ) (topic : Topic) (expiryTimeAt : TimestampMillis)
    (forwardeds : Option ForwardedRecipients) (id : MsgId) :
    (base.register msgId msgLen topic expiryTimeAt forwardeds).entry cfg codec id =
      base.entry cfg codec id := by
  cases forwardeds <;> rfl

theorem entry_step_ne_none (h : Consistent cfg codec s) {a : Step}
    (hid : (s.step cfg codec a).entry cfg codec id ≠ none) :
    s.entry cfg codec id ≠ none ∨ a.storedId = some id := by
  match a with
  | .removeExpired maxLimit now =>
    obtain ⟨s', heq, -, hremoved⟩ := h.exists_removeExpired maxLimit now
    rw [step, heq, hremoved.entry] at hid
    left
    rintro hnone
    rw [hnone, ite_self] at hid
    exact hid rfl
  | .process (.markForwarded msgId recipients) now =>
    left
    rw [step, process] at hid
    split_ifs at hid <;> exact hid
  | .process (.store «from» publish expiryInterval msgId recipients) now =>
    rw [step, process] at hid
    rcases set_cases (s := s) recipients with ⟨-, heq⟩ | ⟨topic, msg, msgLen, base, -, -, -, hput, heq⟩
    · rw [heq] at hid
      exact Or.inl hid
    · rw [heq, entry_register, hput.entry] at hid
      by_cases hmsg : id = msgId
      · exact Or.inr (congrArg some hmsg.symm)
      · rw [if_neg hmsg] at hid
        exact Or.inl hid

theorem Consistent.step (h : Consistent cfg codec s) {a : Step}
    (hfresh : ∀ id, a.storedId = some id → s.entry cfg codec id = none) :
    Consistent cfg codec (s.step cfg codec a) := by
  match a with
  | .removeExpired maxLimit now =>
    obtain ⟨s', heq, h', -⟩ := h.exists_removeExpired maxLimit now
    rw [RamMessageManager.step, heq]
    exact h'
  | .process (.markForwarded msgId recipients) now =>
    rw [RamMessageManager.step, process]
    split_ifs with hexist
    · rw [messagesExist_eq codec] at hexist
      exact Indexed.setForwardeds h hexist recipients
    · exact h
  | .process (.store «from» publish expiryInterval msgId recipients) now =>
    rw [RamMessageManager.step, process]
    rcases set_cases (s := s) recipients with ⟨-, heq⟩ |
      ⟨topic, msg, msgLen, base, -, htopic, hpublish, hput, heq⟩
    · rw [heq]
      exact h
    · rw [heq]
      exact h.register (hfresh msgId rfl) hput (hpublish ▸ htopic) recipients

theorem Consistent.reorder (h : Consistent cfg codec s) {tree : RetainTree MsgId}
    (hr : RetainTree.Reorder s.topicTree tree) :
    Consistent cfg codec { s with topicTree := tree } :=
  { h with
    wf := hr.wf h.wf
    tree := fun path id => by
      rw [hr.get h.wf]
      exact h.tree path id }

/-- In every run that stores no id twice the indexes are kept together, and only ids that have been stored
are there. -/
theorem Run.consistent {steps : List Step} (h : Run cfg codec steps s)
    (hids : (steps.filterMap Step.storedId).Nodup) :
    Consistent cfg codec s ∧
      ∀ id, s.entry cfg codec id ≠ none → id ∈ steps.filterMap Step.storedId := by
  induction h with
  | new => exact ⟨consistent_new, fun id hid => absurd (entry_new id) hid⟩
  | @step steps s a _ ih =>
    rw [filterMap_append] at hids ⊢
    have hnodup := nodup_append.1 hids
    obtain ⟨hcons, hknown⟩ := ih hnodup.1
    have hstored : ∀ id, a.storedId = some id → id ∈ [a].filterMap Step.storedId := fun id hid =>
      mem_filterMap.2 ⟨a, mem_singleton_self a, hid⟩
    refine ⟨hcons.step fun id hid => ?_, fun id hid => ?_⟩
    · by_contra hne
      exact hnodup.2.2 id (hknown id hne) id (hstored id hid) rfl
    · rcases entry_step_ne_none hcons hid with hold | hnew
      · exact mem_append_left _ (hknown id hold)
      · exact mem_append_right _ (hstored id hnew)
  | reorder _ hr ih => exact ⟨(ih hids).1.reorder hr, (ih hids).2⟩

/-- The ids in the map of messages, in the topic tree and in the heap are the same; the tree has each of them
under the levels of its message's topic and the id, and nowhere else; only stored messages have recipients;
and the number of bytes is the sum of the stored sizes. -/
theorem indexes_agree {steps : List Step} (h : Run cfg codec steps s)
    (hids : (steps.filterMap Step.storedId).Nodup) :
    (∀ id, (∃ path, s.topicTree.get path = some id) ↔ s.messagesExist cfg id = true) ∧
    (∀ path id, s.topicTree.get path = some id → ∃ msg topic, s.messagesGet cfg codec id = .ok (some msg) ∧
      Topic.fromStr msg.publish.inner.topic = .ok topic ∧ path = (withId topic id).levels) ∧
    (∀ id, id ∈ s.expiries.items.map Prod.snd ↔ s.messagesExist cfg id = true) ∧
    (∀ id ∈ s.forwardeds.keys, s.messagesExist cfg id = true) ∧
    s.messagesBytesSize = s.total cfg := by
  obtain ⟨hcons, -⟩ := h.consistent hids
  simp only [messagesExist_eq codec]
  refine ⟨fun id => ?_, fun path id hget => ?_, fun id => ?_, hcons.forwarded, hcons.bytes⟩
  · constructor
    · rintro ⟨path, hget⟩
      exact Option.isSome_iff_ne_none.2 ((hcons.tree path id).1 hget).entry_ne_none
    · intro hsome
      obtain ⟨⟨e, size⟩, hentry⟩ := Option.isSome_iff_exists.1 hsome
      obtain ⟨msg, topic, rfl, htopic⟩ := hcons.readable id _ hentry
      exact ⟨_, (hcons.tree _ id).2 ⟨msg, size, topic, hentry, htopic, rfl⟩⟩
  · obtain ⟨msg, size, topic, hentry, htopic, hpath⟩ := (hcons.tree path id).1 hget
    refine ⟨msg, topic, ?_, htopic, hpath⟩
    rw [messagesGet_eq, hentry]
    rfl
  · constructor
    · exact fun hmem => Option.isSome_iff_ne_none.2 (hcons.entry_ne_none hmem)
    · intro hsome
      obtain ⟨⟨e, size⟩, hentry⟩ := Option.isSome_iff_exists.1 hsome
      obtain ⟨msg, topic, rfl, -⟩ := hcons.readable id _ hentry
      exact mem_map.2 ⟨(msg.expiryTimeAt, id), (hcons.expiry _).2 ⟨msg, size, hentry, rfl⟩, rfl⟩

def storeStep (n : ℕ) (msgId : MsgId) (millis : ℕ) : Step :=
  let retain := Retain.plain "a" (List.replicate n 0) none
  .process (.store retain.from retain.publish (millis * 10 ^ 6) msgId none) 0

/-- Two messages, a mark on the first one and a clean-up after it has expired. -/
theorem indexes_agree_two_messages :
    let cfg : RamConfig := ⟨1000, 10, false⟩
    let c : Step := .process (.markForwarded 1 [("c", none)]) 0
    let steps := [storeStep 5 1 10, storeStep 5 2 20, c, .removeExpired 100 15]
    let s := steps.foldl (step cfg .plain) new
    (steps.filterMap Step.storedId).Nodup ∧
    (∀ id, id ∈ s.expiries.items.map Prod.snd ↔ s.messagesExist cfg id = true) ∧
    s.messagesBytesSize = s.total cfg := by
  intro cfg c steps s
  have hids : (steps.filterMap Step.storedId).Nodup := by decide
  have hrun : Run cfg .plain steps s :=
    .step (.removeExpired 100 15) (.step c (.step (storeStep 5 2 20) (.step (storeStep 5 1 10) .new)))
  obtain ⟨-, -, hheap, -, hbytes⟩ := indexes_agree hrun hids
  exact ⟨hids, hheap, hbytes⟩

end

end RamMessageManager

end FerroMq
