import FerroMq.Lib.History

/-!
# The snapshot of the log store

`MemStorage` holds one snapshot beside the log, whose entries below it are dropped.  An asynchronous snapshot
can arrive after a newer one and replace it (`overtaken`).  The held snapshot always reaches the first remaining
entry if and only if this never happens by more than one entry (`covers_iff`).
-/

namespace FerroMq.Raft

open Lib

structure Metadata where
  index : ℕ
  term : ℕ
  deriving DecidableEq

structure Snapshot (D : Type) where
  metadata : Metadata
  data : D

inductive StorageError
  | snapshotOutOfDate
  deriving DecidableEq

/-- The held snapshot, and the index of the first entry in the log of the raft library. -/
structure MemStorage (D : Type) where
  snapshot : Snapshot D
  firstIndex : ℕ

namespace MemStorage

variable {D : Type}

def createSnapshot (_ : MemStorage D) (appliedIndex term : ℕ) : Metadata :=
  { index := appliedIndex, term }

def setSnapshot (self : MemStorage D) (snapshot : Snapshot D) : MemStorage D :=
  { self with snapshot }

def applySnapshot (self : MemStorage D) (snapshot : Snapshot D) :
    Except StorageError Unit × MemStorage D :=
  let self := { self with snapshot }
  if self.firstIndex > snapshot.metadata.index then (.error .snapshotOutOfDate, self)
  else (.ok (), { self with firstIndex := snapshot.metadata.index + 1 })

def compact (self : MemStorage D) (index : ℕ) : MemStorage D :=
  if index ≤ self.firstIndex then self else { self with firstIndex := index }

/-- The entry after the held snapshot has not been dropped. -/
def Covers (self : MemStorage D) : Prop := self.firstIndex ≤ self.snapshot.metadata.index + 1

end MemStorage

/-- The part of a node that deals with snapshots.  `installed` and `received` list the indices of the
snapshots that were set so far, by the node itself and by the leader. -/
structure SnapshotNode (D : Type) where
  applied : ℕ
  storage : MemStorage D
  /-- The asynchronous snapshots that have been started and have not arrived. -/
  started : List Metadata := []
  installed : List ℕ := []
  received : List ℕ := []

namespace SnapshotNode

variable {D : Type}

def new (index term : ℕ) (data : D) : SnapshotNode D where
  applied := index
  storage := { snapshot := { metadata := { index, term }, data }, firstIndex := index + 1 }

def setSnapshot (self : SnapshotNode D) (snap : Snapshot D) : SnapshotNode D :=
  { self with
    storage := (self.storage.setSnapshot snap).compact snap.metadata.index
    installed := snap.metadata.index :: self.installed }

inductive Event (D : Type)
  /-- The raft library moves `applied` forward. -/
  | advance (n : ℕ)
  /-- Another node is added, with a snapshot that is taken at once. -/
  | addNode (data : D)
  /-- An asynchronous snapshot is started. -/
  | generate
  /-- `Message::Snapshot` with one of the started snapshots. -/
  | snapshot (k : ℕ) (data : D)
  /-- The leader sends a snapshot.  The raft library hands over only what is ahead of the node. -/
  | leader (snap : Snapshot D)

/-- One event.  The terms of the log entries are given. -/
def step (term : ℕ → ℕ) (self : SnapshotNode D) : Event D → SnapshotNode D
  | .advance n => { self with applied := self.applied + n }
  | .addNode data =>
    let metadata := self.storage.createSnapshot self.applied (term self.applied)
    self.setSnapshot { metadata, data }
  | .generate =>
    let metadata := self.storage.createSnapshot self.applied (term self.applied)
    { self with started := self.started ++ [metadata] }
  | .snapshot k data =>
    match self.started[k]? with
    | some metadata =>
      { self with started := self.started.eraseIdx k }.setSnapshot { metadata, data }
    | none => self
  | .leader snap =>
    if self.applied < snap.metadata.index then
      { self with
        applied := snap.metadata.index
        storage := (self.storage.applySnapshot snap).2
        received := snap.metadata.index :: self.received }
    else self

def run (term : ℕ → ℕ) (self : SnapshotNode D) (events : List (Event D)) : SnapshotNode D :=
  events.foldl (step term) self

/-- A snapshot that arrives is at most one entry behind those that the node has set and not behind
those from the leader. -/
def NotOvertaken (s : SnapshotNode D) : Event D → Prop
  | .snapshot k _ => ∀ metadata ∈ s.started[k]?,
      (∀ i ∈ s.installed, i ≤ metadata.index + 1) ∧ ∀ i ∈ s.received, i ≤ metadata.index
  | _ => True

/-- What the log has lost, in terms of the history. -/
structure Inv (base : ℕ) (s : SnapshotNode D) : Prop where
  applied : s.storage.firstIndex ≤ s.applied + 1
  base_le : base ≤ s.applied
  started : ∀ metadata ∈ s.started, base ≤ metadata.index ∧ metadata.index ≤ s.applied
  firstIndex : ∀ n, base ≤ n →
    (s.storage.firstIndex ≤ n + 1 ↔ (∀ i ∈ s.installed, i ≤ n + 1) ∧ ∀ i ∈ s.received, i ≤ n)

theorem inv_new (index term : ℕ) (data : D) : Inv index (new index term data) where
  applied := le_rfl
  base_le := le_rfl
  started _ h := nomatch h
  firstIndex n hn := by simp [new, hn]

variable {base : ℕ} {s : SnapshotNode D}

theorem firstIndex_compact (storage : MemStorage D) (index : ℕ) :
    (storage.compact index).firstIndex = max storage.firstIndex index := by
  unfold MemStorage.compact
  split_ifs with h
  · exact (max_eq_left h).symm
  · exact (max_eq_right (le_of_not_ge h)).symm

theorem snapshot_compact (storage : MemStorage D) (index : ℕ) :
    (storage.compact index).snapshot = storage.snapshot := by
  unfold MemStorage.compact
  split_ifs <;> rfl

/-- A snapshot of the node itself covers the log if it is not behind the entries that are left. -/
theorem covers_setSnapshot (snap : Snapshot D) :
    (s.setSnapshot snap).storage.Covers ↔ s.storage.firstIndex ≤ snap.metadata.index + 1 := by
  unfold MemStorage.Covers setSnapshot
  rw [firstIndex_compact, snapshot_compact]
  change max s.storage.firstIndex snap.metadata.index ≤ snap.metadata.index + 1 ↔ _
  omega

theorem Inv.setSnapshot (h : Inv base s) {snap : Snapshot D}
    (hsnap : snap.metadata.index ≤ s.applied) : Inv base (s.setSnapshot snap) where
  applied := by
    have := h.applied
    rw [SnapshotNode.setSnapshot, firstIndex_compact]
    change max s.storage.firstIndex snap.metadata.index ≤ s.applied + 1
    omega
  base_le := h.base_le
  started := h.started
  firstIndex n hn := by
    have := h.firstIndex n hn
    rw [SnapshotNode.setSnapshot, firstIndex_compact]
    change max s.storage.firstIndex snap.metadata.index ≤ n + 1 ↔
      (∀ i ∈ snap.metadata.index :: s.installed, i ≤ n + 1) ∧ ∀ i ∈ s.received, i ≤ n
    rw [max_le_iff, this, List.forall_mem_cons]
    tauto

/-- The raft library accepts what the leader sends. -/
theorem Inv.applySnapshot (h : Inv base s) {snap : Snapshot D}
    (hsnap : s.applied < snap.metadata.index) :
    s.storage.applySnapshot snap =
      (.ok (), { snapshot := snap, firstIndex := snap.metadata.index + 1 }) := by
  have := h.applied
  rw [MemStorage.applySnapshot]
  exact if_neg (by change ¬ s.storage.firstIndex > snap.metadata.index; omega)

theorem Inv.step (h : Inv base s) (term : ℕ → ℕ) (e : Event D) : Inv base (s.step term e) := by
  cases e with
  | advance n =>
    refine ⟨?_, ?_, fun m hm => ?_, h.firstIndex⟩
    · have := h.applied
      change s.storage.firstIndex ≤ s.applied + n + 1
      omega
    · exact h.base_le.trans (Nat.le_add_right _ _)
    · exact ⟨(h.started m hm).1, (h.started m hm).2.trans (Nat.le_add_right _ _)⟩
  | addNode data => exact h.setSnapshot le_rfl
  | generate =>
    refine ⟨h.applied, h.base_le, fun m hm => ?_, h.firstIndex⟩
    rcases List.mem_append.1 hm with hm | hm
    · exact h.started m hm
    · rw [List.mem_singleton.1 hm]
      exact ⟨h.base_le, le_rfl⟩
  | snapshot k data =>
    unfold SnapshotNode.step
    dsimp only
    rcases hk : s.started[k]? with _ | metadata
    · exact h
    · have hle := h.started metadata (List.mem_of_getElem? hk)
      refine Inv.setSnapshot (s := { s with started := s.started.eraseIdx k })
        ⟨h.applied, h.base_le, fun m hm => h.started m (List.mem_of_mem_eraseIdx hm), h.firstIndex⟩
        hle.2
  | leader snap =>
    unfold SnapshotNode.step
    dsimp only
    split_ifs with hlt
    · rw [h.applySnapshot hlt]
      refine ⟨le_rfl, h.base_le.trans hlt.le, fun m hm => ?_, fun n hn => ?_⟩
      · exact ⟨(h.started m hm).1, (h.started m hm).2.trans hlt.le⟩
      · change snap.metadata.index + 1 ≤ n + 1 ↔ (∀ i ∈ s.installed, i ≤ n + 1) ∧
          ∀ i ∈ snap.metadata.index :: s.received, i ≤ n
        -- the older snapshots are not ahead of `applied`
        obtain ⟨hinstalled, hreceived⟩ := (h.firstIndex s.applied h.base_le).1 h.applied
        constructor
        · intro hle
          refine ⟨fun i hi => ?_, List.forall_mem_cons.2 ⟨by omega, fun i hi => ?_⟩⟩
          · have := hinstalled i hi
            omega
          · have := hreceived i hi
            omega
        · rintro ⟨-, h⟩
          exact Nat.succ_le_succ (h _ List.mem_cons_self)
    · exact h

/-- After an event the held snapshot covers the log, unless it is an old one that has just arrived. -/
theorem Inv.covers_step (h : Inv base s) (hs : s.storage.Covers) (term : ℕ → ℕ) (e : Event D) :
    (s.step term e).storage.Covers ↔ s.NotOvertaken e := by
  cases e with
  | advance n => exact iff_of_true hs trivial
  | addNode data => exact iff_of_true ((covers_setSnapshot _).2 h.applied) trivial
  | generate => exact iff_of_true hs trivial
  | snapshot k data =>
    unfold SnapshotNode.step NotOvertaken
    dsimp only
    rcases hk : s.started[k]? with _ | metadata
    · exact iff_of_true hs nofun
    · have hbase := (h.started metadata (List.mem_of_getElem? hk)).1
      simp only [Option.mem_some_iff, forall_eq']
      exact (covers_setSnapshot _).trans (h.firstIndex metadata.index hbase)
  | leader snap =>
    refine iff_of_true ?_ trivial
    unfold SnapshotNode.step
    dsimp only
    split_ifs with hlt
    · rw [h.applySnapshot hlt]
      exact le_rfl
    · exact hs

/-- The held snapshot and the remaining log cover the whole history at all times if and only if no
snapshot that arrives has been overtaken. -/
theorem covers_iff (term : ℕ → ℕ) (index term₀ : ℕ) (data : D) (events : List (Event D)) :
    (∀ pre, pre <+: events → ((new index term₀ data).run term pre).storage.Covers) ↔
      Along (step term) NotOvertaken (new index term₀ data) events :=
  forall_prefix_iff_along (P := fun s => s.storage.Covers) (fun _ e h => h.step term e)
    (fun _ e h hs => h.covers_step hs term e) (inv_new index term₀ data) le_rfl events

/-- An asynchronous snapshot is started at index 1 and arrives after the one for a new node, which was
taken at index 3: entry 2 is in neither the held snapshot nor the log. -/
theorem overtaken :
    let s := (new 0 0 ()).run (fun _ => 1)
      [.advance 1, .generate, .advance 2, .addNode (), .snapshot 0 ()]
    s.storage.snapshot.metadata.index = 1 ∧ s.storage.firstIndex = 3 ∧ ¬ s.storage.Covers := by
  refine ⟨rfl, rfl, ?_⟩
  unfold MemStorage.Covers
  decide

end SnapshotNode

end FerroMq.Raft
