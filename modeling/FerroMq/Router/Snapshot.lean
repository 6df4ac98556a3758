import FerroMq.Lib.Slice
import FerroMq.Router.Cluster

/-!
# Snapshots of the replicated router

`restore` clears the relations and the client states first, but not the topic tree, so what is restored is the
state that was written if and only if every filter in the old tree is one of the new ones
(`restore_snapshot_iff`).
-/

namespace FerroMq

open Lib

namespace ClusterRouter

structure Sections where
  relations : List (Σ _ : TopicFilter, Map ClientId (Id × SubscriptionOptions))
  clientStates : List (Σ _ : ClientId, ClientStatus)
  topicsCount : Counter
  relationsCount : Counter

/-- How the sections are serialised, and the first two compressed. -/
structure SectionFormats where
  relations : Format (List (Σ _ : TopicFilter, Map ClientId (Id × SubscriptionOptions)))
  clientStates : Format (List (Σ _ : ClientId, ClientStatus))
  counter : Format Counter

/-- Serialisation and compression lose nothing of these sections. -/
structure Sections.Lossless (fmt : SectionFormats) (d : Sections) : Prop where
  relations : fmt.relations.Lossless d.relations
  clientStates : fmt.clientStates.Lossless d.clientStates
  topicsCount : fmt.counter.Lossless d.topicsCount
  relationsCount : fmt.counter.Lossless d.relationsCount

/-- The sections list the entries of both maps, in any order. -/
structure Collects (s : ClusterRouter) (d : Sections) : Prop where
  relations : (d.relations : Multiset _) = s.inner.relations.entries
  clientStates : (d.clientStates : Multiset _) = s.clientStates.entries
  topicsCount : d.topicsCount = s.inner.topicsCount
  relationsCount : d.relationsCount = s.inner.relationsCount

inductive RestoreError
  | format
  | topic (e : TopicError)
  deriving DecidableEq

variable (fmt : SectionFormats)

/-! ## Writing -/

def encodeWithLengthPrefix (data out : Bytes) : Bytes :=
  out ++ toLeBytes 8 data.length ++ data

def Sections.encode (d : Sections) : Bytes :=
  let snapshot := encodeWithLengthPrefix (fmt.relations.write d.relations) []
  let snapshot := encodeWithLengthPrefix (fmt.clientStates.write d.clientStates) snapshot
  let snapshot := encodeWithLengthPrefix (fmt.counter.write d.topicsCount) snapshot
  encodeWithLengthPrefix (fmt.counter.write d.relationsCount) snapshot

/-! ## Reading -/

def readLen (overflowChecks : Bool) (snapshot : Bytes) (start : ℕ) :
    Except (Fault RestoreError) ℕ := do
  let stop ← addWord overflowChecks start 8
  let bytes ← slice snapshot start stop
  return fromLeBytes bytes

def decodeWithLengthPrefix {α : Type} (fmt : Format α) (overflowChecks : Bool) (snapshot : Bytes)
    (start len : ℕ) : Except (Fault RestoreError) α := do
  let stop ← addWord overflowChecks start len
  let bytes ← slice snapshot start stop
  (fmt.read bytes).elim (.error (.err .format)) .ok

/-- `rayon::join`: both sides run to their end before the results are looked at. -/
def join {α β : Type} : Except (Fault RestoreError) α → Except (Fault RestoreError) β →
    Except (Fault RestoreError) (α × β)
  | .ok a, .ok b => .ok (a, b)
  | .error .panic, _ | _, .error .panic => .error .panic
  | .error e, _ | _, .error e => .error e

def Sections.decode (overflowChecks : Bool) (snapshot : Bytes) :
    Except (Fault RestoreError) Sections := do
  let relationsLen ← readLen overflowChecks snapshot 0
  let relationsStart := 8
  let next ← addWord overflowChecks relationsStart relationsLen
  let clientStatesLen ← readLen overflowChecks snapshot next
  let clientStatesStart ← addWord overflowChecks (8 + relationsStart) relationsLen
  let next ← addWord overflowChecks clientStatesStart clientStatesLen
  let topicsCountLen ← readLen overflowChecks snapshot next
  let topicsCountStart ← addWord overflowChecks 8 clientStatesStart
  let topicsCountStart ← addWord overflowChecks topicsCountStart clientStatesLen
  let next ← addWord overflowChecks topicsCountStart topicsCountLen
  let relationsCountLen ← readLen overflowChecks snapshot next
  let relationsCountStart ← addWord overflowChecks 8 topicsCountStart
  let relationsCountStart ← addWord overflowChecks relationsCountStart topicsCountLen
  let (relations, clientStates) ← join
    (decodeWithLengthPrefix fmt.relations overflowChecks snapshot relationsStart relationsLen)
    (decodeWithLengthPrefix fmt.clientStates overflowChecks snapshot clientStatesStart
      clientStatesLen)
  let topicsCount ← decodeWithLengthPrefix fmt.counter overflowChecks snapshot topicsCountStart
    topicsCountLen
  let relationsCount ← decodeWithLengthPrefix fmt.counter overflowChecks snapshot
    relationsCountStart relationsCountLen
  return { relations, clientStates, topicsCount, relationsCount }

def restoreRelations (inner : DefaultRouter) :
    List (Σ _ : TopicFilter, Map ClientId (Id × SubscriptionOptions)) →
      Except TopicError Unit × DefaultRouter
  | [] => (.ok (), inner)
  | ⟨topicFilter, relation⟩ :: relations =>
    match Topic.fromStr topicFilter with
    | .ok topic =>
      restoreRelations
        { inner with
          relations := inner.relations.insert topicFilter relation
          topics := (inner.topics.insert topic ()).1 } relations
    | .error e => (.error e, inner)

def load (self : ClusterRouter) (d : Sections) :
    Except (Fault RestoreError) Unit × ClusterRouter :=
  let inner := { self.inner with topicsCount := d.topicsCount, relations := ∅ }
  match restoreRelations inner d.relations with
  | (.ok (), inner) =>
    (.ok (),
      { inner := { inner with relationsCount := d.relationsCount }
        clientStates := Map.insertAll ∅ d.clientStates })
  | (.error e, inner) => (.error (.err (.topic e)), { self with inner })

def restore (overflowChecks : Bool) (self : ClusterRouter) (snapshot : Bytes) :
    Except (Fault RestoreError) Unit × ClusterRouter :=
  match Sections.decode fmt overflowChecks snapshot with
  | .ok d => self.load d
  | .error e => (.error e, self)

/-! ## Reading what was written -/

variable {fmt} {overflowChecks : Bool}

theorem read_section {α : Type} (overflowChecks : Bool) {fmt : Format α} {a : α} {w : Bytes}
    (ha : fmt.Lossless a) (hw : fmt.write a = w) {snapshot : Bytes} (pre post : Bytes)
    (hsnapshot : snapshot = pre ++ toLeBytes 8 w.length ++ w ++ post)
    (h : snapshot.length < 2 ^ 64) :
    (∀ start, start = pre.length → readLen overflowChecks snapshot start = .ok w.length) ∧
    ∀ start, start = pre.length + 8 →
      decodeWithLengthPrefix fmt overflowChecks snapshot start w.length = .ok a := by
  have hlen := length_toLeBytes 8 w.length
  have hbound : pre.length + 8 + w.length < 2 ^ 64 := by
    simp only [hsnapshot, List.length_append, hlen] at h
    omega
  refine ⟨fun start hstart => ?_, fun start hstart => ?_⟩
  · have hslice := slice_append (ε := RestoreError) pre (toLeBytes 8 w.length) (w ++ post)
    rw [← List.append_assoc, ← hsnapshot, hlen, ← hstart] at hslice
    rw [readLen, addWord_eq (by omega)]
    simp only [bind, Except.bind, hslice, pure, Except.pure]
    rw [fromLeBytes_toLeBytes (by norm_num; omega)]
  · have hslice := slice_append (ε := RestoreError) (pre ++ toLeBytes 8 w.length) w post
    rw [← hsnapshot, List.length_append, hlen, ← hstart] at hslice
    rw [decodeWithLengthPrefix, addWord_eq (by omega)]
    simp only [bind, Except.bind, hslice]
    rw [← hw, ha]
    rfl

theorem sections_decode {d : Sections} (hd : d.Lossless fmt) (h : (d.encode fmt).length < 2 ^ 64) :
    Sections.decode fmt overflowChecks (d.encode fmt) = .ok d := by
  obtain ⟨a, ha⟩ : ∃ a, fmt.relations.write d.relations = a := ⟨_, rfl⟩
  obtain ⟨b, hb⟩ : ∃ b, fmt.clientStates.write d.clientStates = b := ⟨_, rfl⟩
  obtain ⟨c, hc⟩ : ∃ c, fmt.counter.write d.topicsCount = c := ⟨_, rfl⟩
  obtain ⟨e, he⟩ : ∃ e, fmt.counter.write d.relationsCount = e := ⟨_, rfl⟩
  have hsnapshot : d.encode fmt = toLeBytes 8 a.length ++ a ++ (toLeBytes 8 b.length ++ b ++
      (toLeBytes 8 c.length ++ c ++ (toLeBytes 8 e.length ++ e))) := by
    simp [Sections.encode, encodeWithLengthPrefix, ha, hb, hc, he]
  have hlen : (d.encode fmt).length =
      8 + a.length + (8 + b.length + (8 + c.length + (8 + e.length))) := by
    simp only [hsnapshot, List.length_append, length_toLeBytes]
  -- the four sections, each between what comes before and what comes after it
  obtain ⟨ra, da⟩ := read_section overflowChecks hd.relations ha []
    (toLeBytes 8 b.length ++ b ++ (toLeBytes 8 c.length ++ c ++ (toLeBytes 8 e.length ++ e)))
    (by simp [hsnapshot]) h
  obtain ⟨rb, db⟩ := read_section overflowChecks hd.clientStates hb (toLeBytes 8 a.length ++ a)
    (toLeBytes 8 c.length ++ c ++ (toLeBytes 8 e.length ++ e)) (by simp [hsnapshot]) h
  obtain ⟨rc, dc⟩ := read_section overflowChecks hd.topicsCount hc
    (toLeBytes 8 a.length ++ a ++ (toLeBytes 8 b.length ++ b)) (toLeBytes 8 e.length ++ e)
    (by simp [hsnapshot]) h
  obtain ⟨re, de⟩ := read_section overflowChecks hd.relationsCount he
    (toLeBytes 8 a.length ++ a ++ (toLeBytes 8 b.length ++ b ++ (toLeBytes 8 c.length ++ c))) []
    (by simp [hsnapshot]) h
  simp only [List.length_append, length_toLeBytes, List.length_nil] at ra da rb db rc dc re de
  unfold Sections.decode
  simp (disch := omega) only [ra, da, rb, db, rc, dc, re, de, addWord_eq, bind, Except.bind, join,
    pure, Except.pure]

/-! ## Filling the router -/

theorem restoreRelations_ok {inner : DefaultRouter}
    {l : List (Σ _ : TopicFilter, Map ClientId (Id × SubscriptionOptions))}
    (hl : ∀ e ∈ l, ∃ ks, DefaultRouter.IsFilter e.1 ks) :
    ∃ topics : TopicTree Unit,
      restoreRelations inner l =
        (.ok (), { inner with topics, relations := Map.insertAll inner.relations l }) ∧
      ∀ ks, topics.get ks ≠ ∅ ↔
        inner.topics.get ks ≠ ∅ ∨ ∃ e ∈ l, DefaultRouter.IsFilter e.1 ks := by
  induction l generalizing inner with
  | nil => exact ⟨inner.topics, rfl, fun ks => by simp⟩
  | cons e l ih =>
    obtain ⟨f, relation⟩ := e
    obtain ⟨-, t, ht, -⟩ := hl ⟨f, relation⟩ List.mem_cons_self
    obtain ⟨topics, hrun, htopics⟩ := @ih
      { inner with
        relations := inner.relations.insert f relation
        topics := (inner.topics.insert t ()).1 }
      fun e he => hl e (List.mem_cons_of_mem _ he)
    refine ⟨topics, ?_, fun ks => ?_⟩
    · rw [restoreRelations, ht]
      exact hrun
    · have hks : DefaultRouter.IsFilter f ks ↔ ks = t.levels := by
        refine ⟨fun h => h.unique ⟨t, ht, rfl⟩, fun h => ⟨t, ht, h.symm⟩⟩
      rw [htopics]
      simp only [TopicTree.get_insert, List.mem_cons, exists_eq_or_imp, hks, ← or_assoc]
      refine or_congr_left ?_
      split_ifs with h <;> simp [h]

/-- What has been restored is the state that was written. -/
structure Restores (r s : ClusterRouter) : Prop where
  relations : r.inner.relations = s.inner.relations
  topics : ∀ ks, r.inner.topics.get ks ≠ ∅ ↔
    ∃ f ∈ s.inner.relations, DefaultRouter.IsFilter f ks
  clientStates : r.clientStates = s.clientStates
  topicsCount : r.inner.topicsCount = s.inner.topicsCount
  relationsCount : r.inner.relationsCount = s.inner.relationsCount

theorem load_collected {s : ClusterRouter} (hs : s.inner.Consistent) {d : Sections}
    (hd : s.Collects d) (p : ClusterRouter) :
    ∃ topics : TopicTree Unit,
      p.load d = (.ok (), { s with inner := { s.inner with topics } }) ∧
      ∀ ks, topics.get ks ≠ ∅ ↔ p.inner.topics.get ks ≠ ∅ ∨
        ∃ f ∈ s.inner.relations, DefaultRouter.IsFilter f ks := by
  have hmem (f : TopicFilter) : f ∈ s.inner.relations ↔ ∃ e ∈ d.relations, e.1 = f := by
    rw [Finmap.mem_def, Multiset.keys, Multiset.mem_map, ← hd.relations]
    rfl
  obtain ⟨topics, hrun, htopics⟩ := @restoreRelations_ok
    { p.inner with topicsCount := d.topicsCount, relations := ∅ } d.relations
    fun e he => hs.parsed e.1 ((hmem _).2 ⟨e, he, rfl⟩)
  refine ⟨topics, ?_, fun ks => ?_⟩
  · rw [load]
    simp only [hrun, Map.insertAll_entries hd.relations, Map.insertAll_entries hd.clientStates]
    rw [hd.topicsCount, hd.relationsCount]
  · rw [htopics]
    refine or_congr_right ⟨?_, ?_⟩
    · rintro ⟨e, he, hks⟩
      exact ⟨e.1, (hmem _).2 ⟨e, he, rfl⟩, hks⟩
    · rintro ⟨f, hf, hks⟩
      obtain ⟨e, he, rfl⟩ := (hmem _).1 hf
      exact ⟨e, he, hks⟩

/-- For a state that was reached by applying messages, and whatever is on the node before: the
snapshot can be restored, and the result is the state that was written if and only if the old topic
tree has no other filters. -/
theorem restore_snapshot_iff (tryLockTimeout : TimestampMillis) (log : List (Message × Clock))
    (p : ClusterRouter) (d : Sections) (hd : (run tryLockTimeout {} log).2.Collects d)
    (hlossless : d.Lossless fmt) (hfits : (d.encode fmt).length < 2 ^ 64) :
    (p.restore fmt overflowChecks (d.encode fmt)).1 = .ok () ∧
      (Restores (p.restore fmt overflowChecks (d.encode fmt)).2 (run tryLockTimeout {} log).2 ↔
        ∀ ks, p.inner.topics.get ks ≠ ∅ →
          ∃ f ∈ (run tryLockTimeout {} log).2.inner.relations, DefaultRouter.IsFilter f ks) := by
  obtain ⟨topics, hload, htopics⟩ := load_collected
    (consistent_run tryLockTimeout {} log DefaultRouter.consistent_new) hd p
  rw [restore, sections_decode hlossless hfits]
  simp only [hload]
  refine ⟨trivial, fun h ks hks => ?_, fun h => ⟨rfl, fun ks => ?_, rfl, rfl, rfl⟩⟩
  · exact (h.topics ks).1 ((htopics ks).2 (.inl hks))
  · exact (htopics ks).trans ⟨fun hks => hks.elim (h ks) id, .inr⟩

/-- One subscription, restored on a node that has none. -/
theorem restore_snapshot_one :
    let x := Id.ofClient 1 "x" 0
    let d : Sections :=
      { relations := [⟨"a", (∅ : Map ClientId _).insert "x" (x, default)⟩], clientStates := []
        topicsCount := ⟨1, 1⟩, relationsCount := ⟨1, 1⟩ }
    let fmt : SectionFormats := ⟨.single d.relations, .single d.clientStates, .single ⟨1, 1⟩⟩
    Restores (restore fmt true {} (d.encode fmt)).2
      (run 1000 {} [(.add "a" x default, ⟨0, 0⟩)]).2 := by
  intro x d fmt
  have hlossless : d.Lossless fmt := ⟨rfl, rfl, rfl, rfl⟩
  refine (restore_snapshot_iff 1000 _ {} d ⟨by decide +kernel, by decide +kernel, by decide +kernel,
    by decide +kernel⟩ hlossless (by decide +kernel)).2.2 fun ks hks => ?_
  obtain ⟨f, hf, -⟩ := (DefaultRouter.consistent_new.topics ks).1 hks
  exact absurd hf Finmap.notMem_empty

/-- The snapshot of an empty router, restored on a node with a subscription: the filter stays in the
topic tree. -/
theorem restore_keeps_topics :
    let d : Sections :=
      { relations := [], clientStates := [], topicsCount := {}, relationsCount := {} }
    let fmt : SectionFormats := ⟨.single [], .single [], .single {}⟩
    let s := (run 1000 {} []).2
    let p := (run 1000 {} [(.add "a" (Id.ofClient 1 "x" 0) default, ⟨0, 0⟩)]).2
    s.Collects d ∧ d.Lossless fmt ∧ (d.encode fmt).length < 2 ^ 64 ∧
      ¬ Restores (p.restore fmt true (d.encode fmt)).2 s := by
  intro d fmt s p
  refine ⟨⟨rfl, rfl, rfl, rfl⟩, ⟨rfl, rfl, rfl, rfl⟩, by decide +kernel, fun h => ?_⟩
  obtain ⟨f, hf, -⟩ := (h.topics [.normal "a"]).1 (by decide +kernel)
  exact absurd hf Finmap.notMem_empty

end ClusterRouter

end FerroMq
