import FerroMq.Message.Indexes

/-!
# Looking up stored messages

The ledger says which messages have been stored and to whom each was forwarded.  `_get` returns those that match
a filter and are due to a client (`get_exact_iff`), unless the filter ends in `/+/#`, or in an id and `#`: the
topic tree has the id as one more level.
-/

namespace FerroMq

open Lib List
open Function (update update_self update_of_ne)

namespace RamMessageManager

variable (cfg : RamConfig) (codec : MessageCodec)

/-! ## The ledger -/

/-- A stored message, its topic and everything it has been marked with. -/
structure Record where
  msg : StoredMessage
  topic : Topic
  marks : ForwardedRecipients

abbrev Ledger := MsgId → Option Record

def Ledger.record (l : Ledger) : Step → Ledger
  | .process (.store «from» publish expiryInterval msgId recipients) now =>
    match accepted cfg codec «from» publish expiryInterval msgId now with
    | some (topic, msg) => Function.update l msgId (some ⟨msg, topic, recipients.getD []⟩)
    | none => l
  | .process (.markForwarded msgId recipients) _ =>
    Function.update l msgId ((l msgId).map fun r => { r with marks := r.marks ++ recipients })
  | .removeExpired _ _ => l

def ledger (steps : List Step) : Ledger := steps.foldl (Ledger.record cfg codec) fun _ => none

/-- The message is due to the client: it has not expired, has not been forwarded to the client, nor to its
group under this filter, and is not for another client. -/
def Record.Due (r : Record) (clientId : ClientId) (topicFilter : TopicFilter) (group : Option SharedGroup)
    (now : TimestampMillis) : Prop :=
  r.msg.isExpiry now = false ∧ clientId ∉ r.marks.map Prod.fst ∧
    (∀ g ∈ group, ∀ mark ∈ r.marks, mark.2 ≠ some (topicFilter, g)) ∧
    ∀ tCid ∈ r.msg.publish.targetClientid, tCid = clientId

/-- The messages of the ledger that match the filter and are due, each once, and nothing else. -/
def Exact (l : Ledger) (clientId : ClientId) (topicFilter : TopicFilter) (filter : Topic)
    (group : Option SharedGroup) (now : TimestampMillis)
    (out : List (MsgId × From × Broker.Publish)) : Prop :=
  (out.map Prod.fst).Nodup ∧ ∀ item, item ∈ out ↔ ∃ r, l item.1 = some r ∧
    item.2 = (r.msg.from, r.msg.publish) ∧ r.Due clientId topicFilter group now ∧
    (TopicTree.insert Trie.empty filter ()).1.isMatch r.topic = true

/-! ## Marks -/

def lastMark (marks : ForwardedRecipients) (clientId : ClientId) :
    Option (Option (TopicFilter × SharedGroup)) :=
  (marks.reverse.find? fun mark => mark.1 = clientId).map Prod.snd

/-- A client that has been marked for a group is not marked again in another way. -/
def KeepsGroups (marks : ForwardedRecipients) : Prop :=
  marks.Pairwise fun mark mark' => mark.1 = mark'.1 → mark.2.isSome → mark'.2 = mark.2

section

variable {cfg codec} {s : RamMessageManager} {l : Ledger}

theorem lastMark_append (marks marks' : ForwardedRecipients) (clientId : ClientId) :
    lastMark (marks ++ marks') clientId = (lastMark marks' clientId).or (lastMark marks clientId) := by
  rw [lastMark, reverse_append, find?_append, Option.map_or]
  rfl

theorem lookup_foldl_insert (marks : ForwardedRecipients)
    (m : Map ClientId (Option (TopicFilter × SharedGroup))) (clientId : ClientId) :
    (marks.foldl (fun clientids (clientId, opts) => clientids.insert clientId opts) m).lookup clientId =
      (lastMark marks clientId).or (m.lookup clientId) := by
  induction marks using List.reverseRecOn with
  | nil => rfl
  | append_singleton marks mark ih =>
    rw [foldl_append, foldl_cons, foldl_nil, Map.lookup_insert', ih, lastMark_append,
      Option.or_assoc]
    by_cases hid : mark.1 = clientId
    · rw [if_pos hid.symm]
      simp [lastMark, hid]
    · rw [if_neg (Ne.symm hid)]
      simp [lastMark, hid]

theorem isSome_lastMark_iff {marks : ForwardedRecipients} {clientId : ClientId} :
    (lastMark marks clientId).isSome ↔ clientId ∈ marks.map Prod.fst := by
  rw [lastMark, Option.isSome_map, find?_isSome, mem_map]
  simp

theorem KeepsGroups.exists_lastMark_iff {marks : ForwardedRecipients} (h : KeepsGroups marks)
    (fg : TopicFilter × SharedGroup) :
    (∃ clientId, lastMark marks clientId = some (some fg)) ↔ ∃ mark ∈ marks, mark.2 = some fg := by
  constructor
  · rintro ⟨clientId, hlast⟩
    obtain ⟨mark, hfind, hmark⟩ := Option.map_eq_some_iff.1 hlast
    exact ⟨mark, mem_reverse.1 (mem_of_find?_eq_some hfind), hmark⟩
  · rintro ⟨mark, hmem, hmark⟩
    refine ⟨mark.1, ?_⟩
    induction marks using List.reverseRecOn with
    | nil => exact nomatch hmem
    | append_singleton marks last ih =>
      have hpairs := pairwise_append.1 h
      rw [lastMark_append]
      by_cases hid : last.1 = mark.1
      · have hlast : last.2 = some fg := by
          rcases mem_append.1 hmem with hmem | hmem
          · rw [← hmark]
            exact hpairs.2.2 mark hmem last (mem_singleton_self last) hid.symm (by rw [hmark]; rfl)
          · rw [← mem_singleton.1 hmem, hmark]
        simp [lastMark, hid, hlast]
      · have hmem' : mark ∈ marks := by
          rcases mem_append.1 hmem with hmem | hmem
          · exact hmem
          · rw [mem_singleton.1 hmem] at hid
            exact absurd rfl hid
        rw [ih hpairs.1 hmem']
        simp [lastMark, hid]

/-! ## The store and the ledger -/

variable (s) in
def markOf (msgId : MsgId) (clientId : ClientId) : Option (Option (TopicFilter × SharedGroup)) :=
  ((s.forwardeds.lookup msgId).getD ∅).lookup clientId

theorem markOf_setForwardeds (msgId : MsgId) (recipients : ForwardedRecipients) (id : MsgId)
    (clientId : ClientId) :
    (s.setForwardeds msgId recipients).markOf id clientId =
      if id = msgId then (lastMark recipients clientId).or (s.markOf msgId clientId)
      else s.markOf id clientId := by
  rw [markOf, setForwardeds]
  dsimp only
  rw [Map.lookup_insert']
  split_ifs with hid
  · rw [Option.getD_some, lookup_foldl_insert]
    rfl
  · rfl

variable {msgId id : MsgId} {r : Record} {filter : Topic}

theorem markOf_register (msgLen : ℕ) (topic : Topic) (expiryTimeAt : TimestampMillis)
    (recipients : Option ForwardedRecipients) (id : MsgId) (clientId : ClientId) :
    (s.register msgId msgLen topic expiryTimeAt recipients).markOf id clientId =
      if id = msgId then (lastMark (recipients.getD []) clientId).or (s.markOf msgId clientId)
      else s.markOf id clientId := by
  cases recipients with
  | none =>
    change s.markOf id clientId = _
    split_ifs with hid
    · rw [hid]
      rfl
    · rfl
  | some recipients => exact markOf_setForwardeds ..

variable (cfg codec s l) in
/-- The store has the messages of the ledger, and of the marks the last one of each client. -/
structure Reflects : Prop where
  entry : ∀ id, (s.entry cfg codec id).map Prod.fst = (l id).map fun r => .ok r.msg
  topic : ∀ id r, l id = some r → Topic.fromStr r.msg.publish.inner.topic = .ok r.topic
  marks : ∀ id r, l id = some r → ∀ clientId, s.markOf id clientId = lastMark r.marks clientId

theorem Reflects.entry_eq_none_iff (h : Reflects cfg codec s l) :
    s.entry cfg codec id = none ↔ l id = none := by
  rw [← Option.map_eq_none_iff, h.entry, Option.map_eq_none_iff]

theorem Reflects.messagesGet_eq (h : Reflects cfg codec s l) (id : MsgId) :
    s.messagesGet cfg codec id = .ok ((l id).map Record.msg) := by
  have hentry := h.entry id
  rw [RamMessageManager.messagesGet_eq]
  cases hl : l id with
  | none =>
    rw [h.entry_eq_none_iff.2 hl]
    rfl
  | some r =>
    rw [hl, Option.map_some, Option.map_eq_some_iff] at hentry
    obtain ⟨⟨e, size⟩, heq, rfl⟩ := hentry
    rw [heq]
    rfl

theorem reflects_new : Reflects cfg codec new fun _ => none where
  entry id := by
    rw [entry_new]
    rfl
  topic _ _ h := absurd h.symm (Option.some_ne_none _)
  marks _ _ h := absurd h.symm (Option.some_ne_none _)

theorem Reflects.setForwardeds (h : Reflects cfg codec s l)
    (hr : l msgId = some r) (recipients : ForwardedRecipients) :
    Reflects cfg codec (s.setForwardeds msgId recipients)
      (update l msgId (some { r with marks := r.marks ++ recipients })) where
  entry id := by
    change (s.entry cfg codec id).map Prod.fst = _
    rw [h.entry]
    by_cases hid : id = msgId
    · subst hid
      rw [update_self, hr]
      rfl
    · rw [update_of_ne hid]
  topic id r' hr' := by
    by_cases hid : id = msgId
    · subst hid
      rw [update_self] at hr'
      cases hr'
      exact h.topic id r hr
    · rw [update_of_ne hid] at hr'
      exact h.topic id r' hr'
  marks id r' hr' clientId := by
    rw [markOf_setForwardeds]
    by_cases hid : id = msgId
    · subst hid
      rw [update_self] at hr'
      cases hr'
      rw [if_pos rfl, lastMark_append, h.marks id r hr]
    · rw [update_of_ne hid] at hr'
      rw [if_neg hid, h.marks id r' hr']

theorem Reflects.register (h : Reflects cfg codec s l) (hcons : Consistent cfg codec s)
    (hfresh : s.entry cfg codec msgId = none) {base : RamMessageManager} {msg : StoredMessage} {msgLen : ℕ}
    (hput : Puts cfg codec s base msgId msg msgLen) {topic : Topic}
    (htopic : Topic.fromStr msg.publish.inner.topic = .ok topic) (recipients : Option ForwardedRecipients) :
    Reflects cfg codec (base.register msgId msgLen (withId topic msgId) msg.expiryTimeAt recipients)
      (update l msgId (some ⟨msg, topic, recipients.getD []⟩)) where
  entry id := by
    rw [entry_register, hput.entry]
    by_cases hid : id = msgId
    · subst hid
      rw [if_pos rfl, update_self]
      rfl
    · rw [if_neg hid, update_of_ne hid, h.entry]
  topic id r hr := by
    by_cases hid : id = msgId
    · subst hid
      rw [update_self] at hr
      cases hr
      exact htopic
    · rw [update_of_ne hid] at hr
      exact h.topic id r hr
  marks id r hr clientId := by
    have hbase : ∀ id, base.markOf id clientId = s.markOf id clientId := fun id => by
      rw [markOf, hput.forwardeds]
      rfl
    rw [markOf_register, hbase, hbase]
    by_cases hid : id = msgId
    · subst hid
      have hnone : s.forwardeds.lookup id = none := by
        by_contra hne
        have hmem := hcons.forwarded id (Finmap.mem_keys.2 (Finmap.lookup_isSome.1
          (Option.isSome_iff_ne_none.2 hne)))
        rw [hfresh] at hmem
        exact nomatch hmem
      rw [update_self] at hr
      cases hr
      rw [if_pos rfl, markOf, hnone]
      exact Option.or_none
    · rw [update_of_ne hid] at hr
      rw [if_neg hid, h.marks id r hr]

/-! ## Runs -/

def Step.isProcess : Step → Bool
  | .process _ _ => true
  | .removeExpired _ _ => false

/-- A message is stored under a topic without wildcards, or its topic does not parse. -/
def Step.Plain : Step → Prop
  | .process (.store _ publish _ _ _) _ => ∀ topic, Topic.fromStr publish.inner.topic = .ok topic →
      ∀ level ∈ topic.levels, level.isWildcard = false
  | _ => True

theorem Reflects.step (h : Reflects cfg codec s l) (hcons : Consistent cfg codec s) {a : Step}
    (ha : a.isProcess = true) (hfresh : ∀ id, a.storedId = some id → s.entry cfg codec id = none) :
    Reflects cfg codec (s.step cfg codec a) (l.record cfg codec a) := by
  match a with
  | .removeExpired _ _ => exact nomatch ha
  | .process (.markForwarded msgId recipients) now =>
    rw [RamMessageManager.step, process, Ledger.record, messagesExist_eq codec]
    cases hr : l msgId with
    | none =>
      rw [h.entry_eq_none_iff.2 hr, Option.isSome_none, if_neg Bool.false_ne_true, Option.map_none,
        Function.update_eq_self_iff.2 hr.symm]
      exact h
    | some r =>
      have hsome : (s.entry cfg codec msgId).isSome := by
        rw [Option.isSome_iff_ne_none, Ne, h.entry_eq_none_iff, hr]
        exact Option.some_ne_none r
      rw [if_pos hsome]
      exact h.setForwardeds hr recipients
  | .process (.store «from» publish expiryInterval msgId recipients) now =>
    rw [RamMessageManager.step, process, Ledger.record]
    rcases set_cases (s := s) recipients with ⟨hacc, heq⟩ |
      ⟨topic, msg, msgLen, base, hacc, htopic, hpublish, hput, heq⟩
    · rw [hacc, heq]
      exact h
    · rw [hacc, heq]
      exact h.register hcons (hfresh msgId rfl) hput (hpublish ▸ htopic) recipients

theorem Run.reflects {steps : List Step} (h : Run cfg codec steps s)
    (hids : (steps.filterMap Step.storedId).Nodup) (hproc : ∀ a ∈ steps, a.isProcess = true) :
    Reflects cfg codec s (ledger cfg codec steps) := by
  induction h with
  | new => exact reflects_new
  | @step steps s a hrun ih =>
    rw [filterMap_append] at hids
    have hnodup := nodup_append.1 hids
    obtain ⟨hcons, hknown⟩ := hrun.consistent hnodup.1
    rw [ledger, foldl_append]
    refine (ih hnodup.1 fun a ha => hproc a (mem_append_left _ ha)).step hcons
      (hproc a (mem_append_right _ (mem_singleton_self a))) fun id hid => ?_
    by_contra hne
    exact hnodup.2.2 id (hknown id hne) id
      (mem_filterMap.2 ⟨a, mem_singleton_self a, hid⟩) rfl
  | reorder _ _ ih =>
    have h := ih hids hproc
    exact ⟨h.entry, h.topic, h.marks⟩

theorem topicTree_register (msgLen : ℕ) (topic : Topic) (expiryTimeAt : TimestampMillis)
    (recipients : Option ForwardedRecipients) :
    (s.register msgId msgLen topic expiryTimeAt recipients).topicTree = s.topicTree.insert topic msgId := by
  cases recipients <;> rfl

theorem wf_topicTree_step (h : Trie.Wf RetainTree.Plain s.topicTree) {a : Step} (ha : a.isProcess = true)
    (hplain : a.Plain) : Trie.Wf RetainTree.Plain (s.step cfg codec a).topicTree := by
  match a with
  | .removeExpired _ _ => exact nomatch ha
  | .process (.markForwarded msgId recipients) now =>
    rw [step, process]
    split_ifs <;> exact h
  | .process (.store «from» publish expiryInterval msgId recipients) now =>
    rw [step, process]
    rcases set_cases (s := s) recipients with ⟨-, heq⟩ | ⟨topic, msg, msgLen, base, -, htopic, -, hput, heq⟩
    · rw [heq]
      exact h
    · rw [heq, topicTree_register, hput.topicTree]
      refine h.upsert _ fun level hlevel => ?_
      rcases mem_append.1 hlevel with hlevel | hlevel
      · exact hplain topic htopic level hlevel
      · rw [mem_singleton.1 hlevel]
        rfl

theorem Run.wf_topicTree {steps : List Step} (h : Run cfg codec steps s)
    (hproc : ∀ a ∈ steps, a.isProcess = true) (hplain : ∀ a ∈ steps, a.Plain) :
    Trie.Wf RetainTree.Plain s.topicTree := by
  induction h with
  | new => exact Trie.wf_empty _
  | @step steps s a _ ih =>
    have ha : a ∈ steps ++ [a] := mem_append_right _ (mem_singleton_self a)
    exact wf_topicTree_step (ih (fun a ha => hproc a (mem_append_left _ ha))
      fun a ha => hplain a (mem_append_left _ ha)) (hproc a ha) (hplain a ha)
  | reorder _ hr ih => exact hr.wf (ih hproc hplain)

/-! ## One message -/

theorem isForwarded_iff {clientId : ClientId} {topicFilter : TopicFilter} {group : Option SharedGroup} :
    s.isForwarded clientId topicFilter group id = true ↔ (s.markOf id clientId).isSome ∨
      ∃ g ∈ group, ∃ cid, s.markOf id cid = some (some (topicFilter, g)) := by
  unfold isForwarded markOf
  cases s.forwardeds.lookup id with
  | none =>
    refine iff_of_false Bool.false_ne_true ?_
    rintro (hmark | ⟨g, -, cid, hmark⟩)
    all_goals
      rw [Option.getD_none, Finmap.lookup_empty] at hmark
      exact nomatch hmark
  | some cids =>
    rw [Option.any_some, Option.getD_some, Bool.or_eq_true, Option.any_eq_true]
    refine or_congr_right (exists_congr fun g => and_congr_right fun _ => ?_)
    rw [decide_eq_true_eq]
    refine exists_congr fun cid => and_iff_right_of_imp fun hmark => ?_
    rw [Finmap.mem_keys, ← Finmap.lookup_isSome, hmark]
    rfl

theorem Reflects.due_iff (h : Reflects cfg codec s l) (hr : l id = some r)
    (hkeeps : KeepsGroups r.marks) (clientId : ClientId) (topicFilter : TopicFilter)
    (group : Option SharedGroup) (now : TimestampMillis) :
    (s.isForwarded clientId topicFilter group id || r.msg.isExpiry now ||
      r.msg.publish.targetClientid.any (fun tCid => decide (tCid ≠ clientId))) = false ↔
    r.Due clientId topicFilter group now := by
  have hforwarded : s.isForwarded clientId topicFilter group id = false ↔
      clientId ∉ r.marks.map Prod.fst ∧ ∀ g ∈ group, ∀ mark ∈ r.marks, mark.2 ≠ some (topicFilter, g) := by
    rw [← Bool.not_eq_true, isForwarded_iff, not_or]
    simp only [h.marks id r hr, isSome_lastMark_iff, hkeeps.exists_lastMark_iff, not_exists, not_and, Ne]
  rw [Bool.or_eq_false_iff, Bool.or_eq_false_iff, hforwarded, Record.Due, Option.any_eq_false]
  simp only [decide_eq_false_iff_not, not_not]
  tauto

theorem Reflects.getOne_eq_some_iff (h : Reflects cfg codec s l)
    (hkeeps : ∀ id r, l id = some r → KeepsGroups r.marks) (clientId : ClientId)
    (topicFilter : TopicFilter) (group : Option SharedGroup) (now : TimestampMillis) (id : MsgId)
    (item : MsgId × From × Broker.Publish) :
    s.getOne cfg codec clientId topicFilter group now id = some item ↔ ∃ r, l id = some r ∧
      r.Due clientId topicFilter group now ∧ item = (id, r.msg.from, r.msg.publish) := by
  rw [getOne, h.messagesGet_eq]
  cases hr : l id with
  | none => simp
  | some r =>
    have hdue := h.due_iff hr (hkeeps id r hr) clientId topicFilter group now
    dsimp only [Option.map_some]
    split_ifs with hskip
    · refine iff_of_false not_false ?_
      rintro ⟨r', ⟨⟩, hr', -⟩
      rw [hdue.2 hr'] at hskip
      exact nomatch hskip
    · constructor
      · rintro ⟨⟩
        exact ⟨r, rfl, hdue.1 (Bool.eq_false_iff.2 hskip), rfl⟩
      · rintro ⟨r', ⟨⟩, -, rfl⟩
        rfl

/-! ## Filters -/

theorem notMem_of_hashLast {pre post : List Level} (h : RetainTree.HashLast (pre ++ post))
    (hpost : post ≠ []) : .multiWildcard ∉ pre := by
  intro hmem
  obtain ⟨l₁, l₂, rfl⟩ := append_of_mem hmem
  have hnil := h l₁ (l₂ ++ post) (by rw [append_assoc, cons_append])
  exact hpost (append_eq_nil_iff.1 hnil).2

/-- The filter ends in `+/#` or in the id and `#`, and the levels before match the topic. -/
def Stray (filter topic : Topic) (msgId : MsgId) : Prop :=
  ∃ pre level, filter.levels = pre ++ [level, .multiWildcard] ∧ Topic.Matches ⟨pre⟩ topic ∧
    (level = .singleWildcard ∨ level = .normal (toString msgId))

theorem Stray.not_matches {topic : Topic} (hfilter : filter.Parsed)
    (h : Stray filter topic msgId) : ¬ filter.Matches topic := by
  rintro ⟨hcovers, -⟩
  obtain ⟨pre, level, hlevels, hmatches, -⟩ := h
  rw [append_cons] at hlevels
  have hmulti : .multiWildcard ∉ pre ++ [level] :=
    notMem_of_hashLast (hlevels ▸ RetainTree.hashLast_of_parsed hfilter) (cons_ne_nil _ _)
  rw [hlevels, covers_append_iff hmulti] at hcovers
  obtain ⟨t₁, t₂, heq, hpre, -⟩ := hcovers
  have hlen := hpre.length_eq hmulti
  have hlen' := hmatches.1.length_eq fun hmem => hmulti (mem_append_left _ hmem)
  rw [heq, length_append, hlen, length_append, length_singleton] at hlen'
  dsimp only at hlen'
  omega

theorem stray_iff {topic : Topic} {pre : List Level}
    (hlevels : filter.levels = pre ++ [.multiWildcard]) (hpre : .multiWildcard ∉ pre)
    (htopic : topic.levels ≠ []) :
    Covers pre (withId topic msgId).levels ∧ ¬ Shielded filter.levels topic.levels ↔
      Stray filter topic msgId := by
  rcases eq_nil_or_concat pre with rfl | ⟨pre, level, rfl⟩
  · -- `#` alone
    constructor
    · rintro ⟨hcovers, -⟩
      have hlen := hcovers.length_eq not_mem_nil
      exact absurd hlen (by simp [withId, Topic.push])
    · rintro ⟨pre', level', heq, -⟩
      rw [heq] at hlevels
      exact absurd (congrArg List.length hlevels) (by simp)
  · rw [concat_eq_append] at hlevels hpre ⊢
    rw [mem_append, not_or, mem_singleton] at hpre
    have hcovers : Covers (pre ++ [level]) (withId topic msgId).levels ↔ Covers pre topic.levels ∧
        (level = .singleWildcard ∨ level = .normal (toString msgId)) :=
      covers_concat_iff hpre.1 (Ne.symm hpre.2)
    have hshielded : Covers pre topic.levels →
        (Shielded filter.levels topic.levels ↔ Shielded pre topic.levels) := by
      intro h
      have hne : pre ≠ [] := by
        rintro rfl
        exact htopic (length_eq_zero_iff.1 (h.length_eq not_mem_nil))
      rw [hlevels, append_assoc, ← append_nil topic.levels, shielded_append_iff hne htopic,
        append_nil]
    rw [hcovers]
    constructor
    · rintro ⟨⟨h, hlevel⟩, hnot⟩
      exact ⟨pre, level, by rw [hlevels, append_assoc]; rfl, ⟨h, mt (hshielded h).2 hnot⟩, hlevel⟩
    · rintro ⟨pre', level', heq, ⟨h, hnot⟩, hlevel⟩
      rw [hlevels, append_assoc] at heq
      obtain ⟨rfl, htail⟩ := append_inj' heq rfl
      cases htail
      exact ⟨⟨h, hlevel⟩, mt (hshielded h).1 hnot⟩

/-- The filter of a lookup takes a message for one it matches, or for one whose id it takes for a level of
the topic. -/
theorem matches_lookupTopic_iff {topic : Topic} (hfilter : filter.Parsed) (htopic : topic.levels ≠ [])
    (msgId : MsgId) : (lookupTopic filter).Matches (withId topic msgId) ↔
      filter.Matches topic ∨ Stray filter topic msgId := by
  have hlast := RetainTree.hashLast_of_parsed hfilter
  rcases eq_nil_or_concat filter.levels with hnil | ⟨pre, level, hconcat⟩
  · exact absurd hnil hfilter.ne_nil
  rw [concat_eq_append] at hconcat
  have hpre : .multiWildcard ∉ pre := notMem_of_hashLast (hconcat ▸ hlast) (cons_ne_nil _ _)
  by_cases hlevel : level = .multiWildcard
  · subst hlevel
    have hlookup : lookupTopic filter = filter := if_pos (by rw [hconcat, getLast?_concat])
    have hshielded : Shielded filter.levels (withId topic msgId).levels ↔
        Shielded filter.levels topic.levels := by
      rw [← append_nil filter.levels]
      exact (shielded_append_iff hfilter.ne_nil htopic).trans (by rw [append_nil])
    rw [hlookup, Topic.Matches, Topic.Matches, hshielded, ← stray_iff hconcat hpre htopic, ← or_and_right]
    refine and_congr_left fun _ => ?_
    rw [hconcat]
    exact covers_concat_multi_iff hpre
  · have hmulti : .multiWildcard ∉ filter.levels := by
      rw [hconcat, mem_append, mem_singleton]
      rintro (hmem | rfl)
      · exact hpre hmem
      · exact hlevel rfl
    have hlookup : lookupTopic filter = filter.push .singleWildcard := if_neg (by
      rw [hconcat, getLast?_concat]
      exact fun h => hlevel (Option.some.inj h))
    have hstray : ¬ Stray filter topic msgId := by
      rintro ⟨pre', level', heq, -⟩
      exact hmulti (by rw [heq]; simp)
    rw [hlookup, or_iff_left hstray]
    refine and_congr ?_ (not_congr (shielded_append_iff hfilter.ne_nil htopic))
    exact (covers_concat_iff (l := .singleWildcard) hmulti nofun).trans (and_iff_left (Or.inl rfl))

theorem hashLast_lookupTopic (hfilter : filter.Parsed) : RetainTree.HashLast (lookupTopic filter).levels := by
  have hlast := RetainTree.hashLast_of_parsed hfilter
  unfold lookupTopic
  split_ifs with hmulti
  · exact hlast
  · intro l₁ l₂ heq
    rcases eq_nil_or_concat l₂ with rfl | ⟨l₂, level, rfl⟩
    · rfl
    · rw [Topic.push, concat_eq_append, ← cons_append, ← append_assoc] at heq
      have hlevels := (append_inj' heq rfl).1
      obtain rfl := hlast l₁ l₂ hlevels
      exact absurd (by rw [hlevels, getLast?_concat]) hmulti

/-! ## All messages -/

theorem Reflects.isFiled_iff (h : Reflects cfg codec s l) {path : List Level} :
    IsFiled cfg codec s path id ↔ ∃ r, l id = some r ∧ path = (withId r.topic id).levels := by
  have hentry := h.entry id
  constructor
  · rintro ⟨msg, size, topic, heq, htopic, hpath⟩
    rw [heq, Option.map_some, eq_comm, Option.map_eq_some_iff] at hentry
    obtain ⟨r, hr, hmsg⟩ := hentry
    cases hmsg
    cases htopic.symm.trans (h.topic id r hr)
    exact ⟨r, hr, hpath⟩
  · rintro ⟨r, hr, hpath⟩
    rw [hr, Option.map_some, Option.map_eq_some_iff] at hentry
    obtain ⟨⟨e, size⟩, heq, rfl⟩ := hentry
    exact ⟨r.msg, size, r.topic, heq, h.topic id r hr, hpath⟩

theorem Reflects.mem_matches_iff (h : Reflects cfg codec s l) (hcons : Consistent cfg codec s)
    (hwf : Trie.Wf RetainTree.Plain s.topicTree) (hfilter : filter.Parsed) :
    ((s.topicTree.matches (lookupTopic filter)).map Prod.snd).Nodup ∧
      ∀ id, id ∈ (s.topicTree.matches (lookupTopic filter)).map Prod.snd ↔
        ∃ r, l id = some r ∧ (filter.Matches r.topic ∨ Stray filter r.topic id) := by
  have hlast := hashLast_lookupTopic hfilter
  have hmem : ∀ item, item ∈ s.topicTree.matches (lookupTopic filter) ↔ ∃ r, l item.2 = some r ∧
      item.1 = withId r.topic item.2 ∧ (lookupTopic filter).Matches (withId r.topic item.2) := by
    rintro ⟨topic, id⟩
    dsimp only
    rw [RetainTree.matches, RetainTree.mem_collect hwf hlast]
    constructor
    · rintro ⟨ks, ⟨rfl, hget⟩, hcovers, -, hshielded⟩
      obtain ⟨r, hr, rfl⟩ := h.isFiled_iff.1 ((hcons.tree ks id).1 hget)
      exact ⟨r, hr, rfl, hcovers, hshielded rfl⟩
    · rintro ⟨r, hr, rfl, hcovers, hshielded⟩
      exact ⟨_, ⟨rfl, (hcons.tree _ id).2 (h.isFiled_iff.2 ⟨r, hr, rfl⟩)⟩, hcovers,
        fun _ => append_ne_nil_of_right_ne_nil _ (cons_ne_nil _ _), fun _ => hshielded⟩
  constructor
  · -- an id is filed under one topic only
    refine pairwise_map.2 ((pairwise_map.1 (RetainTree.nodup_collect hwf hlast [])).imp_of_mem ?_)
    intro item item' hitem hitem' hne heq
    obtain ⟨r, hr, hfst, -⟩ := (hmem item).1 hitem
    obtain ⟨r', hr', hfst', -⟩ := (hmem item').1 hitem'
    rw [heq] at hr hfst
    cases hr.symm.trans hr'
    exact hne (hfst.trans hfst'.symm)
  · intro id
    rw [mem_map]
    constructor
    · rintro ⟨item, hitem, rfl⟩
      obtain ⟨r, hr, -, hmatches⟩ := (hmem item).1 hitem
      have hne : r.topic.levels ≠ [] := Topic.Parsed.ne_nil ⟨_, h.topic _ r hr⟩
      exact ⟨r, hr, (matches_lookupTopic_iff hfilter hne _).1 hmatches⟩
    · rintro ⟨r, hr, hmatches⟩
      have hne : r.topic.levels ≠ [] := Topic.Parsed.ne_nil ⟨_, h.topic _ r hr⟩
      exact ⟨(withId r.topic id, id), (hmem _).2 ⟨r, hr, rfl, (matches_lookupTopic_iff hfilter hne id).2 hmatches⟩,
        rfl⟩

theorem Reflects.isWildcard_topic (h : Reflects cfg codec s l) (hcons : Consistent cfg codec s)
    (hwf : Trie.Wf RetainTree.Plain s.topicTree) (hr : l id = some r) :
    ∀ level ∈ r.topic.levels, level.isWildcard = false := by
  have hget := (hcons.tree _ id).2 (h.isFiled_iff.2 ⟨r, hr, rfl⟩)
  have hplain := hwf.key_of_get (by rw [hget]; exact Option.some_ne_none id)
  exact fun level hlevel => hplain level (mem_append_left _ hlevel)

theorem Reflects.mem_getAll_iff (h : Reflects cfg codec s l)
    (hkeeps : ∀ id r, l id = some r → KeepsGroups r.marks) (clientId : ClientId)
    (topicFilter : TopicFilter) (group : Option SharedGroup) (now : TimestampMillis) {msgIds : List MsgId}
    (hnodup : msgIds.Nodup) :
    ((msgIds.filterMap (s.getOne cfg codec clientId topicFilter group now)).map Prod.fst).Nodup ∧
      ∀ item, item ∈ msgIds.filterMap (s.getOne cfg codec clientId topicFilter group now) ↔
        item.1 ∈ msgIds ∧ ∃ r, l item.1 = some r ∧ item.2 = (r.msg.from, r.msg.publish) ∧
          r.Due clientId topicFilter group now := by
  have hget := h.getOne_eq_some_iff hkeeps clientId topicFilter group now
  constructor
  · refine pairwise_map.2 (pairwise_filterMap.2 (hnodup.imp ?_))
    intro id id' hne item hitem item' hitem' heq
    obtain ⟨_, -, -, rfl⟩ := (hget id item).1 hitem
    obtain ⟨_, -, -, rfl⟩ := (hget id' item').1 hitem'
    exact hne heq
  · intro item
    rw [mem_filterMap]
    constructor
    · rintro ⟨id, hid, hitem⟩
      obtain ⟨r, hr, hdue, rfl⟩ := (hget id item).1 hitem
      exact ⟨hid, r, hr, rfl, hdue⟩
    · rintro ⟨hid, r, hr, hitem, hdue⟩
      exact ⟨item.1, hid, (hget _ _).2 ⟨r, hr, hdue, Prod.ext rfl hitem⟩⟩

theorem Reflects.exact_iff (h : Reflects cfg codec s l) (hcons : Consistent cfg codec s)
    (hwf : Trie.Wf RetainTree.Plain s.topicTree) (hkeeps : ∀ id r, l id = some r → KeepsGroups r.marks)
    {topicFilter : TopicFilter} (hfilter : Topic.fromStr topicFilter = .ok filter)
    (clientId : ClientId) (group : Option SharedGroup) (now : TimestampMillis) :
    ∃ out, s.get cfg codec clientId topicFilter group now = .ok out ∧
      (Exact l clientId topicFilter filter group now out ↔
        ∀ id r, l id = some r → r.Due clientId topicFilter group now → ¬ Stray filter r.topic id) := by
  obtain ⟨hnodup, hmatches⟩ := h.mem_matches_iff hcons hwf ⟨topicFilter, hfilter⟩
  obtain ⟨hnodup', hitems⟩ := h.mem_getAll_iff hkeeps clientId topicFilter group now hnodup
  have hmatch : ∀ {id r}, l id = some r →
      ((TopicTree.insert Trie.empty filter ()).1.isMatch r.topic = true ↔ filter.Matches r.topic) := fun hr =>
    TopicTree.isMatch_insert_empty filter () (h.isWildcard_topic hcons hwf hr)
  refine ⟨_, by rw [get, hfilter]; rfl, ?_⟩
  constructor
  · rintro ⟨-, hexact⟩ id r hr hdue hstray
    have hmem := (hitems (id, r.msg.from, r.msg.publish)).2
      ⟨(hmatches id).2 ⟨r, hr, Or.inr hstray⟩, r, hr, rfl, hdue⟩
    obtain ⟨r', hr', -, -, hm⟩ := (hexact _).1 hmem
    cases hr.symm.trans hr'
    exact hstray.not_matches ⟨topicFilter, hfilter⟩ ((hmatch hr).1 hm)
  · intro hnone
    refine ⟨hnodup', fun item => ?_⟩
    rw [hitems]
    constructor
    · rintro ⟨hid, r, hr, hitem, hdue⟩
      obtain ⟨r', hr', hm⟩ := (hmatches _).1 hid
      cases hr.symm.trans hr'
      exact ⟨r, hr, hitem, hdue, (hmatch hr).2 (hm.resolve_right (hnone _ r hr hdue))⟩
    · rintro ⟨r, hr, hitem, hdue, hm⟩
      exact ⟨(hmatches _).2 ⟨r, hr, Or.inl ((hmatch hr).1 hm)⟩, r, hr, hitem, hdue⟩

/-- A lookup returns the messages that match the filter and are due, each once and no other ones, exactly if
no message that is due is a stray one. -/
theorem get_exact_iff {steps : List Step} (h : Run cfg codec steps s)
    (hids : (steps.filterMap Step.storedId).Nodup) (hproc : ∀ a ∈ steps, a.isProcess = true)
    (hplain : ∀ a ∈ steps, a.Plain)
    (hkeeps : ∀ id r, ledger cfg codec steps id = some r → KeepsGroups r.marks)
    {topicFilter : TopicFilter} {filter : Topic} (hfilter : Topic.fromStr topicFilter = .ok filter)
    (clientId : ClientId) (group : Option SharedGroup) (now : TimestampMillis) :
    ∃ out, s.get cfg codec clientId topicFilter group now = .ok out ∧
      (Exact (ledger cfg codec steps) clientId topicFilter filter group now out ↔
        ∀ id r, ledger cfg codec steps id = some r → r.Due clientId topicFilter group now →
          ¬ Stray filter r.topic id) :=
  (h.reflects hids hproc).exact_iff (h.consistent hids).1 (h.wf_topicTree hproc hplain) hkeeps hfilter
    clientId group now

theorem ledger_storeStep (codec : MessageCodec) (hencode : cfg.encode = false) (n : ℕ) (msgId : MsgId) (millis : ℕ) :
    ∃ msg : StoredMessage, msg.publish.targetClientid = none ∧ msg.expiryTimeAt = millis ∧
      ledger cfg codec [storeStep n msgId millis] =
        update (fun _ => none) msgId (some ⟨msg, ⟨[.normal "a"]⟩, []⟩) := by
  have htopic : Topic.fromStr "a" = .ok ⟨[.normal "a"]⟩ := by decide +kernel
  let retain := Retain.plain "a" (List.replicate n 0) none
  refine ⟨⟨msgId, retain.from, retain.publish, 0 + ((millis * 10 ^ 6 / 10 ^ 6 : ℕ) : ℤ)⟩, rfl, ?_, ?_⟩
  · dsimp only
    rw [Nat.mul_div_cancel _ (by decide), Int.zero_add]
  · rw [ledger, foldl_cons, foldl_nil, storeStep, Ledger.record, accepted]
    dsimp only [Retain.plain]
    rw [htopic, hencode]
    rfl

theorem plain_storeStep (n : ℕ) (msgId : MsgId) (millis : ℕ) : (storeStep n msgId millis).Plain := by
  have htopic : Topic.fromStr "a" = .ok ⟨[.normal "a"]⟩ := by decide +kernel
  intro topic h level hlevel
  cases htopic.symm.trans h
  rw [mem_singleton.1 hlevel]
  rfl

theorem keepsGroups_storeStep (hencode : cfg.encode = false) (n : ℕ) (msgId : MsgId) (millis : ℕ) :
    ∀ id r, ledger cfg codec [storeStep n msgId millis] id = some r → KeepsGroups r.marks := by
  intro id r hr
  obtain ⟨msg, -, -, hledger⟩ := ledger_storeStep codec hencode n msgId millis
  rw [hledger, Function.update_apply] at hr
  split_ifs at hr
  cases hr
  exact .nil

/-- A message under `a`, looked up with `#`. -/
theorem get_exact_iff_one_message :
    let cfg : RamConfig := ⟨1000, 10, false⟩
    let steps := [storeStep 5 1 10]
    let s := new.step cfg .plain (storeStep 5 1 10)
    (steps.filterMap Step.storedId).Nodup ∧ (∀ a ∈ steps, a.isProcess = true) ∧ (∀ a ∈ steps, a.Plain) ∧
    (∀ id r, ledger cfg .plain steps id = some r → KeepsGroups r.marks) ∧
    ∃ out, s.get cfg .plain "c" "#" none 0 = .ok out ∧
      (Exact (ledger cfg .plain steps) "c" "#" ⟨[.multiWildcard]⟩ none 0 out ↔
        ∀ id r, ledger cfg .plain steps id = some r → r.Due "c" "#" none 0 →
          ¬ Stray ⟨[.multiWildcard]⟩ r.topic id) := by
  intro cfg steps s
  have hids : (steps.filterMap Step.storedId).Nodup := by decide
  have hproc : ∀ a ∈ steps, a.isProcess = true := fun a ha => by
    rw [mem_singleton.1 ha]
    rfl
  have hplain : ∀ a ∈ steps, a.Plain := fun a ha => by
    rw [mem_singleton.1 ha]
    exact plain_storeStep 5 1 10
  have hkeeps : ∀ id r, ledger cfg .plain steps id = some r → KeepsGroups r.marks :=
    keepsGroups_storeStep rfl 5 1 10
  have hfilter : Topic.fromStr "#" = .ok ⟨[.multiWildcard]⟩ := by decide +kernel
  exact ⟨hids, hproc, hplain, hkeeps,
    get_exact_iff (.step (storeStep 5 1 10) .new) hids hproc hplain hkeeps hfilter "c" none 0⟩

/-- A message under `a` is returned for the filter `a/+/#`. -/
theorem parent_returned :
    let cfg : RamConfig := ⟨1000, 10, false⟩
    let s := new.step cfg .plain (storeStep 5 1 10)
    ∃ out, s.get cfg .plain "c" "a/+/#" none 0 = .ok out ∧
      ¬ Exact (ledger cfg .plain [storeStep 5 1 10]) "c" "a/+/#"
        ⟨[.normal "a", .singleWildcard, .multiWildcard]⟩ none 0 out := by
  intro cfg s
  have hrun : Run cfg .plain [storeStep 5 1 10] s := .step (storeStep 5 1 10) .new
  have hids : ([storeStep 5 1 10].filterMap Step.storedId).Nodup := by decide
  have hproc : ∀ a ∈ [storeStep 5 1 10], a.isProcess = true := fun a ha => by
    rw [mem_singleton.1 ha]
    rfl
  have hplain : ∀ a ∈ [storeStep 5 1 10], a.Plain := fun a ha => by
    rw [mem_singleton.1 ha]
    exact plain_storeStep 5 1 10
  have hfilter : Topic.fromStr "a/+/#" = .ok ⟨[.normal "a", .singleWildcard, .multiWildcard]⟩ := by
    decide +kernel
  obtain ⟨out, hout, hexact⟩ := (hrun.reflects hids hproc).exact_iff (hrun.consistent hids).1
    (hrun.wf_topicTree hproc hplain) (keepsGroups_storeStep rfl 5 1 10) hfilter "c" none 0
  refine ⟨out, hout, fun h => ?_⟩
  obtain ⟨msg, htarget, htime, hledger⟩ := @ledger_storeStep cfg .plain rfl 5 1 10
  refine hexact.1 h 1 ⟨msg, ⟨[.normal "a"]⟩, []⟩ (by rw [hledger, update_self]) ?_ ?_
  · refine ⟨?_, not_mem_nil, nofun, ?_⟩
    · rw [StoredMessage.isExpiry, htime]
      decide
    · rw [htarget]
      exact nofun
  · refine ⟨[.normal "a"], .singleWildcard, rfl, ⟨.exact rfl .nil, ?_⟩, Or.inl rfl⟩
    rw [shielded_cons_iff]
    exact nofun

end

end RamMessageManager

end FerroMq
