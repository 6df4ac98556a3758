import FerroMq.Raft.Message
import FerroMq.Router.Copy

/-!
# Snapshots and the log

A snapshot is labelled with the entries handled before the current batch (`applied`), although the store may
contain later ones, which are applied again after a restore.  That gives the state of the log (`Stands`) if none
of them was refused the first time and no subscription came or went during the copy (`snapshots_stand`,
`snapshot_replays_refused_lock`).
-/

namespace FerroMq.Raft

open Lib ClusterRouter List

/-- A message with the clock at which it is applied. -/
abbrev Command := Message × Clock

inductive Entry
  | empty
  | normal (proposals : Proposals Command)
  | addNode (id : NodeId)
  | removeNode (id : NodeId)

def Entry.commands : Entry → List Command
  | normal proposals => proposals.inOrder
  | _ => []

structure Replica where
  id : NodeId
  store : ClusterRouter := {}
  /-- How many entries have been handled. -/
  handled : ℕ := 0
  /-- How many entries the raft library takes for applied. -/
  applied : ℕ := 0
  /-- The copies that are being made: the label, and the states of the store since the start. -/
  copies : List (ℕ × List ClusterRouter) := []
  /-- The finished snapshots with their labels. -/
  snapshots : List (ℕ × Sections) := []

variable (tryLockTimeout : TimestampMillis)

def statesAfter (r : ClusterRouter) : List Command → List ClusterRouter
  | [] => []
  | e :: log => ClusterRouter.applied tryLockTimeout r e ::
      statesAfter (ClusterRouter.applied tryLockTimeout r e) log

namespace Replica

def handleNormal (self : Replica) (proposals : Proposals Command) : Replica :=
  { self with
    store := (self.store.run tryLockTimeout proposals.inOrder).2
    handled := self.handled + 1
    copies := self.copies.map fun (label, window) =>
      (label, window ++ statesAfter tryLockTimeout self.store proposals.inOrder) }

def generateSnapshotAsync (self : Replica) : Replica :=
  { self with copies := self.copies ++ [(self.applied, [self.store])] }

inductive Event
  /-- `handle_normal`; the flag says whether the snapshot interval has elapsed. -/
  | normal (elapsed : Bool)
  /-- `handle_config_change` for another node, with the snapshot that it takes. -/
  | addNode (d : Sections)
  /-- Any other entry. -/
  | skip
  /-- The batch is finished. -/
  | advance
  /-- A copy is finished. -/
  | copied (k : ℕ) (d : Sections)

/-- What a node can do while it works through the log. -/
inductive Step (log : List Entry) : Replica → Event → Replica → Prop
  | normal {n : Replica} {proposals : Proposals Command}
      (h : log[n.handled]? = some (.normal proposals)) :
      Step log n (.normal false) (n.handleNormal tryLockTimeout proposals)
  | normalElapsed {n : Replica} {proposals : Proposals Command}
      (h : log[n.handled]? = some (.normal proposals)) :
      Step log n (.normal true) (n.handleNormal tryLockTimeout proposals).generateSnapshotAsync
  | addNode {n : Replica} {id : NodeId} {d : Sections} (h : log[n.handled]? = some (.addNode id))
      (hid : id ≠ n.id) (hd : n.store.Collects d) :
      Step log n (.addNode d)
        { n with handled := n.handled + 1, snapshots := n.snapshots ++ [(n.applied, d)] }
  | skip {n : Replica} {e : Entry} (h : log[n.handled]? = some e) (he : e.commands = []) :
      Step log n .skip { n with handled := n.handled + 1 }
  | advance {n : Replica} : Step log n .advance { n with applied := n.handled }
  | copied {n : Replica} {k label : ℕ} {window : List ClusterRouter} {d : Sections}
      (h : n.copies[k]? = some (label, window)) (hd : CollectsFrom window d) :
      Step log n (.copied k d)
        { n with copies := n.copies.eraseIdx k, snapshots := n.snapshots ++ [(label, d)] }

/-- The states that a node can reach with events that are `Ok`. -/
inductive Reachable (log : List Entry) (Ok : Replica → Event → Prop) (id : NodeId) :
    Replica → Prop
  | start : Reachable log Ok id { id }
  | step {n n' : Replica} {e : Event} (hn : Reachable log Ok id n) (hok : Ok n e)
      (h : Step tryLockTimeout log n e n') : Reachable log Ok id n'

end Replica

/-! ## The log and its states -/

def between (log : List Entry) (i j : ℕ) : List Command :=
  ((log.take j).drop i).flatMap Entry.commands

def stateAt (log : List Entry) (i : ℕ) : ClusterRouter :=
  (run tryLockTimeout {} ((log.take i).flatMap Entry.commands)).2

/-- A snapshot stands for the log up to its label: whoever restores it and applies the entries that
follow gets what the whole log gives. -/
def Stands (log : List Entry) (label : ℕ) (d : Sections) : Prop :=
  ∀ p : ClusterRouter, (p.load d).1 = .ok () ∧
    Agree ((p.load d).2.run tryLockTimeout ((log.drop label).flatMap Entry.commands)).2
      (stateAt tryLockTimeout log log.length)

variable {tryLockTimeout} {log : List Entry}

theorem between_succ {i j : ℕ} {e : Entry} (he : log[j]? = some e) (hij : i ≤ j) :
    between log i (j + 1) = between log i j ++ e.commands := by
  have hj : j < log.length := (List.getElem?_eq_some_iff.1 he).1
  rw [between, between, take_add_one, he, drop_append_of_le_length, flatMap_append]
  · simp
  · rw [length_take]
    omega

theorem take_flatMap_eq {i j : ℕ} (hij : i ≤ j) :
    (log.take j).flatMap Entry.commands =
      (log.take i).flatMap Entry.commands ++ between log i j := by
  rw [between, ← flatMap_append]
  congr 1
  conv_lhs => rw [← take_append_drop i (log.take j), take_take, min_eq_left hij]

theorem drop_flatMap_eq {i j : ℕ} (hij : i ≤ j) :
    (log.drop i).flatMap Entry.commands =
      between log i j ++ (log.drop j).flatMap Entry.commands := by
  rw [between, ← flatMap_append]
  congr 1
  rcases le_total j log.length with hj | hj
  · conv_lhs => rw [← take_append_drop j log]
    rw [drop_append_of_le_length (by rw [length_take, min_eq_left hj]; exact hij)]
  · rw [take_of_length_le hj, drop_of_length_le hj, append_nil]

theorem stateAt_eq_run {i j : ℕ} (hij : i ≤ j) :
    stateAt tryLockTimeout log j =
      ((stateAt tryLockTimeout log i).run tryLockTimeout (between log i j)).2 := by
  rw [stateAt, take_flatMap_eq hij, run_append]
  rfl

theorem stateAt_skip {j : ℕ} {e : Entry} (hj : log[j]? = some e) (he : e.commands = []) :
    stateAt tryLockTimeout log (j + 1) = stateAt tryLockTimeout log j := by
  rw [stateAt, stateAt, take_add_one, hj, Option.toList_some, flatMap_append,
    flatMap_singleton, he, append_nil]

theorem stateAt_length (i : ℕ) :
    stateAt tryLockTimeout log log.length =
      ((stateAt tryLockTimeout log i).run tryLockTimeout ((log.drop i).flatMap Entry.commands)).2 := by
  rw [stateAt, stateAt, take_length, ← run_append, ← flatMap_append,
    take_append_drop]

theorem consistent_stateAt (i : ℕ) : (stateAt tryLockTimeout log i).inner.Consistent :=
  consistent_run _ _ _ DefaultRouter.consistent_new

/-! ## What a snapshot stands for -/

variable (tryLockTimeout) in
/-- No message of the entries after `i` up to `j` was refused. -/
def NothingRefused (log : List Entry) (i j : ℕ) : Prop :=
  Along (ClusterRouter.applied tryLockTimeout) (Accepts tryLockTimeout)
    (stateAt tryLockTimeout log i) (between log i j)

variable (tryLockTimeout) in
/-- A copy that can be used: after `j` entries the store has been in these states. -/
structure Usable (log : List Entry) (j label : ℕ) (window : List ClusterRouter) : Prop where
  le : label ≤ j
  accepted : NothingRefused tryLockTimeout log label j
  states : ∀ s ∈ window, ∃ pre, pre <+: between log label j ∧
    s = ((stateAt tryLockTimeout log label).run tryLockTimeout pre).2
  pairs : ∀ s ∈ window, SamePairs s (stateAt tryLockTimeout log j)

variable {j label : ℕ} {window : List ClusterRouter} {d : Sections}

theorem Usable.start (hle : label ≤ j) (h : NothingRefused tryLockTimeout log label j) :
    Usable tryLockTimeout log j label [stateAt tryLockTimeout log j] where
  le := hle
  accepted := h
  states s hs := ⟨_, prefix_rfl, by rw [mem_singleton.1 hs, stateAt_eq_run hle]⟩
  pairs s hs f c := by rw [mem_singleton.1 hs]

theorem Usable.stands (h : Usable tryLockTimeout log j label window) (hd : CollectsFrom window d) :
    Stands tryLockTimeout log label d := by
  intro p
  have hwindow (s : ClusterRouter) (hs : s ∈ window) : s.inner.Consistent := by
    obtain ⟨pre, -, rfl⟩ := h.states s hs
    exact consistent_run _ _ _ (consistent_stateAt label)
  have hpairs (s : ClusterRouter) (hs : s ∈ window) (t : ClusterRouter) (ht : t ∈ window) :
      SamePairs s t := fun f c => (h.pairs s hs f c).trans (h.pairs t ht f c).symm
  obtain ⟨hok, r, hr, hagree, hsub, hclient⟩ := load_copied hwindow hpairs hd p
  -- the entries up to `j` bring the copy to where the store was, the rest does the same to both
  have hreplay : Agree (r.run tryLockTimeout (between log label j)).2
      (stateAt tryLockTimeout log j) := by
    rw [stateAt_eq_run h.le]
    refine agree_replay (consistent_stateAt label) hr h.accepted (fun f c => ?_) fun c => ?_
    · obtain ⟨s, hs, hsf⟩ := hsub f c
      obtain ⟨pre, hpre, rfl⟩ := h.states s hs
      exact ⟨pre, hpre, hsf⟩
    · obtain ⟨s, hs, hsc⟩ := hclient c
      obtain ⟨pre, hpre, rfl⟩ := h.states s hs
      exact ⟨pre, hpre, hsc⟩
  rw [drop_flatMap_eq h.le, run_append, stateAt_length j]
  exact ⟨hok, ((hagree.run _).trans hreplay).run _⟩

/-! ## Entries that are handled during a copy -/

variable {r s : ClusterRouter} {cmds : List Command}

theorem exists_prefix_of_mem_statesAfter (hs : s ∈ statesAfter tryLockTimeout r cmds) :
    ∃ pre, pre <+: cmds ∧ s = (r.run tryLockTimeout pre).2 := by
  induction cmds generalizing r with
  | nil => cases hs
  | cons e cmds ih =>
    rcases mem_cons.1 hs with rfl | hs
    · exact ⟨[e], ⟨cmds, rfl⟩, rfl⟩
    · obtain ⟨pre, hpre, rfl⟩ := ih hs
      exact ⟨e :: pre, cons_prefix_cons.2 ⟨rfl, hpre⟩, rfl⟩

/-- The message is accepted, and no subscription comes or goes. -/
def Quiet (tryLockTimeout : TimestampMillis) (r : ClusterRouter) (e : Command) : Prop :=
  Accepts tryLockTimeout r e ∧ SamePairs r (ClusterRouter.applied tryLockTimeout r e)

theorem samePairs_of_quiet
    (h : Along (ClusterRouter.applied tryLockTimeout) (Quiet tryLockTimeout) r cmds) :
    ∀ s ∈ r :: statesAfter tryLockTimeout r cmds, SamePairs s (r.run tryLockTimeout cmds).2 := by
  induction cmds generalizing r with
  | nil =>
    intro s hs
    rw [mem_singleton.1 hs]
    exact fun _ _ => rfl
  | cons e cmds ih =>
    have hlast := ih h.2
    intro s hs
    rcases mem_cons.1 hs with rfl | hs
    · exact fun f c => (h.1.2 f c).trans (hlast _ mem_cons_self f c)
    · exact hlast s hs

theorem Usable.normal {proposals : Proposals Command} (h : Usable tryLockTimeout log j label window)
    (hj : log[j]? = some (.normal proposals))
    (hquiet : Along (ClusterRouter.applied tryLockTimeout) (Quiet tryLockTimeout)
      (stateAt tryLockTimeout log j) proposals.inOrder) :
    Usable tryLockTimeout log (j + 1) label
      (window ++ statesAfter tryLockTimeout (stateAt tryLockTimeout log j) proposals.inOrder) := by
  have hbetween : between log label (j + 1) = between log label j ++ proposals.inOrder :=
    between_succ hj h.le
  have hnext : stateAt tryLockTimeout log (j + 1) =
      ((stateAt tryLockTimeout log j).run tryLockTimeout proposals.inOrder).2 := by
    rw [stateAt_eq_run (h.le.trans j.le_succ), hbetween, run_append, ← stateAt_eq_run h.le]
  have hpairs := samePairs_of_quiet hquiet
  refine ⟨h.le.trans j.le_succ, ?_, fun s hs => ?_, fun s hs => ?_⟩
  · rw [NothingRefused, hbetween, along_append]
    refine ⟨h.accepted, ?_⟩
    rw [← run_eq_foldl, ← stateAt_eq_run h.le]
    exact hquiet.mono fun _ _ h => h.1
  · rw [hbetween]
    rcases mem_append.1 hs with hs | hs
    · obtain ⟨pre, hpre, rfl⟩ := h.states s hs
      exact ⟨pre, hpre.trans (prefix_append _ _), rfl⟩
    · obtain ⟨pre, hpre, rfl⟩ := exists_prefix_of_mem_statesAfter hs
      refine ⟨between log label j ++ pre, (prefix_append_right_inj _).2 hpre, ?_⟩
      rw [run_append, ← stateAt_eq_run h.le]
  · rw [hnext]
    rcases mem_append.1 hs with hs | hs
    · exact fun f c => (h.pairs s hs f c).trans (hpairs _ mem_cons_self f c)
    · exact hpairs s (mem_cons_of_mem _ hs)

theorem Usable.skip {e : Entry} (h : Usable tryLockTimeout log j label window)
    (hj : log[j]? = some e) (he : e.commands = []) :
    Usable tryLockTimeout log (j + 1) label window := by
  have hbetween : between log label (j + 1) = between log label j := by
    rw [between_succ hj h.le, he, append_nil]
  refine ⟨h.le.trans j.le_succ, ?_, ?_, ?_⟩
  · rw [NothingRefused, hbetween]
    exact h.accepted
  · rw [hbetween]
    exact h.states
  · rw [stateAt_skip hj he]
    exact h.pairs

/-! ## Runs of a node -/

namespace Replica

/-- While a copy is being made, every message is accepted and no subscription comes or goes; and when
a snapshot is taken or started, no message since `applied` has been refused. -/
def Calm (tryLockTimeout : TimestampMillis) (log : List Entry) (n : Replica) : Event → Prop
  | .normal elapsed =>
    (n.copies ≠ [] → Along (ClusterRouter.applied tryLockTimeout) (Quiet tryLockTimeout) n.store
      (between log n.handled (n.handled + 1))) ∧
    (elapsed = true → NothingRefused tryLockTimeout log n.applied (n.handled + 1))
  | .addNode _ => NothingRefused tryLockTimeout log n.applied n.handled
  | _ => True

structure Inv (tryLockTimeout : TimestampMillis) (log : List Entry) (n : Replica) : Prop where
  le : n.applied ≤ n.handled
  store : n.store = stateAt tryLockTimeout log n.handled
  copies : ∀ label window, (label, window) ∈ n.copies →
    Usable tryLockTimeout log n.handled label window
  snapshots : ∀ label d, (label, d) ∈ n.snapshots → Stands tryLockTimeout log label d

variable {n n' : Replica} {id : NodeId} {e : Event}

theorem between_one {e : Entry} (he : log[j]? = some e) :
    between log j (j + 1) = e.commands := by
  rw [between_succ he le_rfl, between, drop_of_length_le]
  · rfl
  · exact length_take_le j log

theorem Inv.handleNormal {proposals : Proposals Command} (h : Inv tryLockTimeout log n)
    (hj : log[n.handled]? = some (.normal proposals))
    (hquiet : n.copies ≠ [] → Along (ClusterRouter.applied tryLockTimeout) (Quiet tryLockTimeout)
      n.store (between log n.handled (n.handled + 1))) :
    Inv tryLockTimeout log (n.handleNormal tryLockTimeout proposals) where
  le := h.le.trans (Nat.le_succ _)
  store := by
    rw [Replica.handleNormal, h.store, stateAt_eq_run (Nat.le_succ n.handled), between_one hj]
    rfl
  copies label window hmem := by
    obtain ⟨⟨label', window'⟩, hcopy, heq⟩ := mem_map.1 hmem
    cases heq
    have := hquiet (ne_nil_of_mem hcopy)
    rw [between_one hj, h.store] at this
    rw [h.store]
    exact (h.copies label window' hcopy).normal hj this
  snapshots := h.snapshots

theorem Inv.step (h : Inv tryLockTimeout log n) (hok : Calm tryLockTimeout log n e)
    (hstep : Step tryLockTimeout log n e n') : Inv tryLockTimeout log n' := by
  cases hstep with
  | normal hj => exact h.handleNormal hj hok.1
  | normalElapsed hj =>
    have hnext := h.handleNormal hj hok.1
    refine ⟨hnext.le, hnext.store, fun label window hmem => ?_, hnext.snapshots⟩
    rcases mem_append.1 hmem with hmem | hmem
    · exact hnext.copies label window hmem
    · cases mem_singleton.1 hmem
      rw [hnext.store]
      exact Usable.start hnext.le (hok.2 rfl)
  | addNode hj hid hd =>
    refine ⟨h.le.trans (Nat.le_succ _), h.store.trans (stateAt_skip hj rfl).symm,
      fun label window hmem => (h.copies label window hmem).skip hj rfl, fun label d hmem => ?_⟩
    rcases mem_append.1 hmem with hmem | hmem
    · exact h.snapshots label d hmem
    · cases mem_singleton.1 hmem
      rw [h.store] at hd
      exact (Usable.start h.le hok).stands hd.collectsFrom
  | skip hj he =>
    exact ⟨h.le.trans (Nat.le_succ _), h.store.trans (stateAt_skip hj he).symm,
      fun label window hmem => (h.copies label window hmem).skip hj he, h.snapshots⟩
  | advance => exact ⟨le_rfl, h.store, h.copies, h.snapshots⟩
  | copied hk hd =>
    refine ⟨h.le, h.store, fun label window hmem => ?_, fun label d hmem => ?_⟩
    · exact h.copies label window (mem_of_mem_eraseIdx hmem)
    · rcases mem_append.1 hmem with hmem | hmem
      · exact h.snapshots label d hmem
      · cases mem_singleton.1 hmem
        exact (h.copies _ _ (mem_of_getElem? hk)).stands hd

theorem Reachable.inv (hn : Reachable tryLockTimeout log (Calm tryLockTimeout log) id n) :
    Inv tryLockTimeout log n := by
  induction hn with
  | start => exact ⟨le_rfl, rfl, nofun, nofun⟩
  | step _ hok h ih => exact ih.step hok h

/-- Every snapshot of a calm run stands for the log up to its label. -/
theorem snapshots_stand (tryLockTimeout : TimestampMillis) (log : List Entry) (id : NodeId)
    (n : Replica) (hn : Reachable tryLockTimeout log (Calm tryLockTimeout log) id n) (label : ℕ)
    (d : Sections) (hd : (label, d) ∈ n.snapshots) : Stands tryLockTimeout log label d :=
  hn.inv.snapshots label d hd

/-- A lock and a new node in one batch: the snapshot already has the lock, and its label has not. -/
theorem snapshots_stand_lock :
    let x := Id.ofClient 1 "c" 0
    Stands 1000 [.normal (.one (.handshakeTryLock x, ⟨0, 0⟩)), .addNode 2] 0
      { relations := [], clientStates := [⟨"c", ⟨x, false, true, 0⟩⟩], topicsCount := {}
        relationsCount := {} } := by
  intro x
  refine snapshots_stand 1000 _ 1 _ (.step (.step .start (e := .normal false) ?_ (.normal rfl))
    (e := .addNode _) ?_ (.addNode rfl (by decide) ⟨rfl, ?_, rfl, rfl⟩)) 0 _
    (mem_singleton_self _)
  · exact ⟨fun h => absurd rfl h, nofun⟩
  · refine ⟨fun c hc => ?_, trivial⟩
    cases hc
    rfl
  · decide +kernel

/-- The lock of `y` is refused because `x` holds it, and `x` connects in the same batch.  The snapshot
is labelled with the entry before both, so the lock of `y` is asked for again when `x` has released
it, and `x` is turned away. -/
theorem snapshot_replays_refused_lock :
    let x := Id.ofClient 1 "c" 0
    let y := Id.ofClient 2 "c" 1
    let log : List Entry :=
      [.normal (.one (.handshakeTryLock x, ⟨0, 0⟩)), .normal (.one (.handshakeTryLock y, ⟨1, 1⟩)),
        .normal (.one (.connected x, ⟨2, 2⟩)), .addNode 2]
    let d : Sections :=
      { relations := [], clientStates := [⟨"c", ⟨x, true, false, 0⟩⟩], topicsCount := {}
        relationsCount := {} }
    ∃ n, Reachable 1000 log (fun _ _ => True) 1 n ∧ (1, d) ∈ n.snapshots ∧
      ¬ Stands 1000 log 1 d := by
  intro x y log d
  refine ⟨_, .step (.step (.step (.step (.step .start trivial (.normal rfl)) trivial .advance)
    trivial (.normal rfl)) trivial (.normal rfl)) trivial
    (.addNode rfl (by decide) (⟨rfl, by decide +kernel, rfl, rfl⟩ : Collects _ d)),
    mem_singleton_self _, fun h => ?_⟩
  have hstates := congrArg (Finmap.lookup "c") (h {}).2.clientStates
  revert hstates
  decide +kernel

end Replica

end FerroMq.Raft
