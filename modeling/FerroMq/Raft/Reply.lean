import FerroMq.Lib.History
import FerroMq.Lib.Map
import FerroMq.Raft.Message

/-!
# Replies to proposals

A node keeps the channels of its proposals under a number of its own that travels with the entry.  Whoever
handles a committed entry answers the channels it has under that number, whichever node proposed it
(`wrong_answer`); `answers_own` says when that is right.  Proposed entries are committed in any order, each at
most once.
-/

namespace FerroMq.Raft

open Lib List

/-- A proposal with a number of its own, which also names the channel for its reply. -/
structure Proposal (α : Type) where
  tag : ℕ
  data : α
  deriving DecidableEq

inductive Body (α : Type)
  | normal (proposals : Proposals (Proposal α))
  | configChange

/-- An entry: the node that proposed it, the sequence number in its context, and the data. -/
structure LogEntry (α : Type) where
  proposer : ℕ
  seq : ℕ
  body : Body α

structure Answer (ρ : Type) where
  chan : ℕ
  proposal : ℕ
  reply : ρ
  deriving DecidableEq

structure RaftNode (σ α : Type) where
  store : σ
  merger : Merger (Proposal α) ℕ
  seq : ℕ := 0
  uncommitteds : Map ℕ (ReplyChan ℕ) := ∅
  /-- How many committed entries have been handled. -/
  handled : ℕ := 0

variable {σ α ρ : Type} (apply : σ → α → ρ × σ)

/-! ## One node -/

def applyMore (store : σ) : List (Proposal α) → List ℕ → List (Answer ρ) × σ
  | [], _ => ([], store)
  | p :: proposals, chans =>
    let (reply, store) := apply store p.data
    let answers := chans.head?.toList.map fun chan => { chan, proposal := p.tag, reply }
    let (rest, store) := applyMore store proposals chans.tail
    (answers ++ rest, store)

def ReplyChan.ofOne : Option (ReplyChan ℕ) → List ℕ
  | some (.one chan) => [chan]
  | _ => []

def ReplyChan.ofMore : Option (ReplyChan ℕ) → List ℕ
  | some (.more chans) => chans
  | _ => []

namespace RaftNode

def handleNormal (self : RaftNode σ α) (seq : ℕ) :
    Proposals (Proposal α) → List (Answer ρ) × RaftNode σ α
  | .one p =>
    let (answers, store) :=
      applyMore apply self.store [p] (ReplyChan.ofOne (self.uncommitteds.lookup seq))
    (answers, { self with
      store, uncommitteds := self.uncommitteds.erase seq, handled := self.handled + 1 })
  | .more ps =>
    let (answers, store) := applyMore apply self.store ps.reverse
      (ReplyChan.ofMore (self.uncommitteds.lookup seq)).reverse
    (answers, { self with
      store, uncommitteds := self.uncommitteds.erase seq, handled := self.handled + 1 })

/-- The reply to a change of the configuration is not the result of an `apply`. -/
def handleConfigChange (self : RaftNode σ α) (seq : ℕ) : RaftNode σ α :=
  { self with uncommitteds := self.uncommitteds.erase seq, handled := self.handled + 1 }

/-- Propose a batch if there is one.  The channels are registered before the raft library is asked. -/
def takeAndPropose (self : RaftNode σ α) (id : ℕ) (now later : ℤ) :
    Option (LogEntry α) × RaftNode σ α :=
  match self.merger.take now later with
  | (some (data, replyChans), merger) =>
    (some { proposer := id, seq := self.seq, body := .normal data },
      { self with
        merger, seq := self.seq + 1, uncommitteds := self.uncommitteds.insert self.seq replyChans })
  | (none, merger) => (none, { self with merger })

end RaftNode

/-! ## The cluster -/

structure Cluster (σ α ρ : Type) where
  nodes : ℕ → RaftNode σ α
  /-- The number of the next proposal. -/
  next : ℕ := 0
  /-- The entries that the raft library has accepted and not committed. -/
  inFlight : List (LogEntry α) := []
  committed : List (LogEntry α) := []
  answers : List (Answer ρ) := []

namespace Cluster

inductive Event (σ α : Type)
  /-- `Message::Propose` on a node that takes itself for the leader; the raft library may refuse what
  is proposed. -/
  | propose (k : ℕ) (data : α) (now later : ℤ) (accepted : Bool)
  /-- No message has come for a while. -/
  | idle (k : ℕ) (now later : ℤ) (accepted : Bool)
  /-- `Message::ConfigChange` on a node that takes itself for the leader. -/
  | configChange (k : ℕ) (accepted : Bool)
  | commit (i : ℕ)
  | handle (k : ℕ)
  /-- A snapshot of the first `i` entries is restored. -/
  | restore (k i : ℕ) (store : σ)

variable (s : Cluster σ α ρ)

def setNode (k : ℕ) (node : RaftNode σ α) : Cluster σ α ρ :=
  { s with nodes := Function.update s.nodes k node }

def takeAndPropose (k : ℕ) (now later : ℤ) (accepted : Bool) : Cluster σ α ρ :=
  let (entry, node) := (s.nodes k).takeAndPropose k now later
  { s.setNode k node with
    inFlight := if accepted then s.inFlight ++ entry.toList else s.inFlight }

def step : Event σ α → Cluster σ α ρ
  | .propose k data now later accepted =>
    let node := s.nodes k
    let s := s.setNode k { node with merger := node.merger.add { tag := s.next, data } s.next }
    { s with next := s.next + 1 }.takeAndPropose k now later accepted
  | .idle k now later accepted => s.takeAndPropose k now later accepted
  | .configChange k accepted =>
    let node := s.nodes k
    let s := { s with next := s.next + 1 }.setNode k
      { node with
        seq := node.seq + 1, uncommitteds := node.uncommitteds.insert node.seq (.one s.next) }
    { s with
      inFlight := if accepted then
        s.inFlight ++ [{ proposer := k, seq := node.seq, body := .configChange }] else s.inFlight }
  | .commit i =>
    { s with inFlight := s.inFlight.eraseIdx i, committed := s.committed ++ s.inFlight[i]?.toList }
  | .handle k =>
    match s.committed[(s.nodes k).handled]? with
    | some { seq, body := .normal proposals, .. } =>
      let (answers, node) := (s.nodes k).handleNormal apply seq proposals
      { s.setNode k node with answers := s.answers ++ answers }
    | some { seq, body := .configChange, .. } => s.setNode k ((s.nodes k).handleConfigChange seq)
    | none => s
  | .restore k i store => s.setNode k { s.nodes k with store, handled := max i (s.nodes k).handled }

def run (events : List (Event σ α)) : Cluster σ α ρ := events.foldl (step apply) s

/-- Every reply is the one to the proposal that the channel was registered for. -/
def AnswersOwn : Prop := ∀ a ∈ s.answers, a.chan = a.proposal

/-- A node has no channel under the number of the entry that it handles, unless it has proposed the
entry. -/
def NotForeign : Event σ α → Prop
  | .handle k => ∀ e ∈ s.committed[(s.nodes k).handled]?, e.seq ∈ (s.nodes k).uncommitteds →
      e.proposer = k
  | _ => True

end Cluster

/-! ## Channels and proposals -/

/-- The channels are those of the proposals. -/
def Matches : ReplyChan ℕ → Body α → Prop
  | .one chan, .normal (.one p) => chan = p.tag
  | .more chans, .normal (.more ps) => chans = ps.map Proposal.tag
  | .one _, .configChange => True
  | _, _ => False

/-- The proposals of a merger have the channels beside them. -/
def Merger.Paired (m : Merger (Proposal α) ℕ) : Prop := m.chans = m.proposals.map Proposal.tag

variable {m : Merger (Proposal α) ℕ}

theorem Merger.Paired.add (h : m.Paired) (tag : ℕ) (data : α) : (m.add { tag, data } tag).Paired := by
  unfold Merger.Paired Merger.add at *
  rw [h, map_append]
  rfl

theorem Merger.Paired.take (h : m.Paired) (now later : ℤ) :
    (m.take now later).2.Paired ∧
      ∀ data chans, (m.take now later).1 = some (data, chans) → Matches chans (.normal data) := by
  unfold Merger.Paired at h
  unfold Merger.take
  dsimp only
  generalize (if m.proposals.length > m.proposalBatchSize then m.proposalBatchSize
    else m.proposals.length) = len
  split_ifs with hlen hone
  · rw [h, getLast?_map]
    rcases m.proposals.getLast? with _ | p
    · exact ⟨h, nofun⟩
    · refine ⟨?_, ?_⟩
      · simp [Merger.Paired, map_dropLast]
      · rintro data chans ⟨⟩
        rfl
  · refine ⟨?_, ?_⟩
    · simp [Merger.Paired, h, map_drop]
    · rintro data chans ⟨⟩
      simp [Matches, h, map_take]
  · exact ⟨h, nofun⟩

theorem answers_applyMore (store : σ) (ps : List (Proposal α)) (chans : List ℕ)
    (h : chans = [] ∨ chans = ps.map Proposal.tag) :
    ∀ a ∈ (applyMore apply store ps chans).1, a.chan = a.proposal := by
  induction ps generalizing store chans with
  | nil => exact fun a ha => nomatch ha
  | cons p ps ih =>
    intro a ha
    rcases mem_append.1 ha with ha | ha
    · rcases h with rfl | rfl
      · cases ha
      · rw [mem_singleton.1 ha]
    · refine ih _ _ ?_ a ha
      rcases h with rfl | rfl
      · exact .inl rfl
      · exact .inr rfl

/-! ## The invariant -/

namespace Cluster

/-- What a node has registered belongs to the entries that it has proposed. -/
structure Inv (s : Cluster σ α ρ) : Prop where
  paired : ∀ k, (s.nodes k).merger.Paired
  seq : ∀ e ∈ s.inFlight ++ s.committed, e.seq < (s.nodes e.proposer).seq
  registered : ∀ k n chan, (s.nodes k).uncommitteds.lookup n = some chan → n < (s.nodes k).seq ∧
    ∀ e ∈ s.inFlight ++ s.committed, e.proposer = k → e.seq = n → Matches chan e.body
  answers : s.AnswersOwn

variable {apply} {s : Cluster σ α ρ} {k : ℕ}

theorem Inv.setNode (h : Inv s) (k : ℕ) (node : RaftNode σ α) (hpaired : node.merger.Paired)
    (hseq : node.seq = (s.nodes k).seq)
    (hsub : ∀ n chan, node.uncommitteds.lookup n = some chan →
      (s.nodes k).uncommitteds.lookup n = some chan) : Inv (s.setNode k node) where
  paired j := by
    rcases eq_or_ne j k with rfl | hne
    · simpa [Cluster.setNode] using hpaired
    · simpa [Cluster.setNode, hne] using h.paired j
  seq e he := by
    have := h.seq e he
    by_cases hne : e.proposer = k
    · rw [hne] at this
      simpa [Cluster.setNode, hne, hseq] using this
    · simpa [Cluster.setNode, hne] using this
  registered j n chan hn := by
    rcases eq_or_ne j k with rfl | hne
    · simp only [Cluster.setNode, Function.update_self] at hn ⊢
      rw [hseq]
      exact h.registered j n chan (hsub n chan hn)
    · simp only [Cluster.setNode, Function.update_of_ne hne] at hn ⊢
      exact h.registered j n chan hn
  answers := h.answers

theorem Inv.register (h : Inv s) (k : ℕ) (node : RaftNode σ α) (chan : ReplyChan ℕ) (body : Body α)
    (hpaired : node.merger.Paired) (hseq : node.seq = (s.nodes k).seq + 1)
    (hunc : node.uncommitteds = (s.nodes k).uncommitteds.insert (s.nodes k).seq chan)
    (hmatch : Matches chan body) (accepted : Bool) :
    Inv { s.setNode k node with
      inFlight := if accepted then
        s.inFlight ++ [{ proposer := k, seq := (s.nodes k).seq, body }] else s.inFlight } := by
  have hmem (e : LogEntry α)
      (he : e ∈ (if accepted = true then s.inFlight ++ [⟨k, (s.nodes k).seq, body⟩]
        else s.inFlight) ++ s.committed) :
      e = ⟨k, (s.nodes k).seq, body⟩ ∨ e ∈ s.inFlight ++ s.committed := by
    split_ifs at he <;> simp only [mem_append, mem_singleton] at he ⊢ <;> tauto
  refine ⟨fun j => ?_, fun e he => ?_, fun j n chan' hn => ?_, h.answers⟩
  · rcases eq_or_ne j k with rfl | hne
    · simpa [Cluster.setNode] using hpaired
    · simpa [Cluster.setNode, hne] using h.paired j
  · rcases hmem e he with rfl | he
    · simp [Cluster.setNode, hseq]
    · have := h.seq e he
      by_cases hne : e.proposer = k
      · rw [hne] at this
        simp only [Cluster.setNode, hne, Function.update_self, hseq]
        omega
      · simpa [Cluster.setNode, hne] using this
  · rcases eq_or_ne j k with rfl | hne
    · simp only [Cluster.setNode, Function.update_self, hunc, Map.lookup_insert'] at hn ⊢
      split_ifs at hn with hnew
      · cases hn
        refine ⟨by omega, fun e he hp hs => ?_⟩
        rcases hmem e he with rfl | he
        · exact hmatch
        · have := h.seq e he
          rw [hp] at this
          omega
      · obtain ⟨hlt, hall⟩ := h.registered j n chan' hn
        refine ⟨by omega, fun e he hp hs => ?_⟩
        rcases hmem e he with rfl | he
        · exact absurd hs.symm hnew
        · exact hall e he hp hs
    · simp only [Cluster.setNode, Function.update_of_ne hne] at hn ⊢
      obtain ⟨hlt, hall⟩ := h.registered j n chan' hn
      refine ⟨hlt, fun e he hp hs => ?_⟩
      rcases hmem e he with rfl | he
      · exact absurd hp.symm hne
      · exact hall e he hp hs

theorem Inv.takeAndPropose (h : Inv s) (now later : ℤ) (accepted : Bool) :
    Inv (s.takeAndPropose k now later accepted) := by
  obtain ⟨hpaired, hmatch⟩ := (h.paired k).take now later
  unfold Cluster.takeAndPropose RaftNode.takeAndPropose
  rcases htake : (s.nodes k).merger.take now later with ⟨_ | ⟨data, chans⟩, merger⟩
  · rw [htake] at hpaired
    simp only [Option.toList_none, append_nil, ite_self]
    exact h.setNode k { s.nodes k with merger } hpaired rfl fun _ _ hn => hn
  · rw [htake] at hpaired hmatch
    exact h.register k _ chans (.normal data) hpaired rfl rfl (hmatch data chans rfl) accepted

theorem Inv.handle (h : Inv s) {e : LogEntry α} (he : e ∈ s.committed)
    (hown : e.seq ∈ (s.nodes k).uncommitteds → e.proposer = k) {ps : Proposals (Proposal α)}
    (hbody : e.body = .normal ps) :
    Inv { s.setNode k ((s.nodes k).handleNormal apply e.seq ps).2 with
      answers := s.answers ++ ((s.nodes k).handleNormal apply e.seq ps).1 } := by
  have hmatch (chan : ReplyChan ℕ) (hchan : (s.nodes k).uncommitteds.lookup e.seq = some chan) :
      Matches chan (.normal ps) := by
    have hk : e.proposer = k := hown (Finmap.mem_of_lookup_eq_some hchan)
    have := (h.registered k e.seq chan hchan).2 e (mem_append_right _ he) hk rfl
    rwa [hbody] at this
  have herase (n : ℕ) (chan : ReplyChan ℕ)
      (hn : ((s.nodes k).uncommitteds.erase e.seq).lookup n = some chan) :
      (s.nodes k).uncommitteds.lookup n = some chan := by
    rw [Map.lookup_erase'] at hn
    split_ifs at hn
    exact hn
  have hnode : Inv (s.setNode k ((s.nodes k).handleNormal apply e.seq ps).2) := by
    cases ps <;> exact h.setNode k _ (h.paired k) rfl herase
  refine ⟨hnode.paired, hnode.seq, hnode.registered, fun a ha => ?_⟩
  rcases mem_append.1 ha with ha | ha
  · exact h.answers a ha
  -- the channels are missing, or they are those of the entry
  · cases ps with
    | one p =>
      refine answers_applyMore apply (s.nodes k).store [p]
        (ReplyChan.ofOne ((s.nodes k).uncommitteds.lookup e.seq)) ?_ a ha
      rcases hchan : (s.nodes k).uncommitteds.lookup e.seq with _ | chan | chans
      · exact .inl rfl
      · exact .inr (by rw [show chan = p.tag from hmatch _ hchan]; rfl)
      · exact .inl rfl
    | more ps =>
      refine answers_applyMore apply (s.nodes k).store ps.reverse
        (ReplyChan.ofMore ((s.nodes k).uncommitteds.lookup e.seq)).reverse ?_ a ha
      rcases hchan : (s.nodes k).uncommitteds.lookup e.seq with _ | chan | chans
      · exact .inl rfl
      · exact .inl rfl
      · refine .inr ?_
        rw [show chans = ps.map Proposal.tag from hmatch _ hchan, ReplyChan.ofMore, map_reverse]

theorem Inv.step (h : Inv s) (e : Event σ α) (he : s.NotForeign e) : Inv (s.step apply e) := by
  cases e with
  | propose k data now later accepted =>
    have hadd := h.setNode k
      { s.nodes k with merger := (s.nodes k).merger.add { tag := s.next, data } s.next }
      ((h.paired k).add _ _) rfl fun _ _ hn => hn
    have hnext : Inv { s.setNode k { s.nodes k with
        merger := (s.nodes k).merger.add { tag := s.next, data } s.next } with
        next := s.next + 1 } := ⟨hadd.paired, hadd.seq, hadd.registered, hadd.answers⟩
    exact hnext.takeAndPropose now later accepted
  | idle k now later accepted => exact h.takeAndPropose now later accepted
  | configChange k accepted =>
    have hreg := h.register k { s.nodes k with
      seq := (s.nodes k).seq + 1
      uncommitteds := (s.nodes k).uncommitteds.insert (s.nodes k).seq (.one s.next) } (.one s.next)
      .configChange (h.paired k) rfl rfl trivial accepted
    exact ⟨hreg.paired, hreg.seq, hreg.registered, hreg.answers⟩
  | commit i =>
    have hmem (e : LogEntry α)
        (he : e ∈ s.inFlight.eraseIdx i ++ (s.committed ++ s.inFlight[i]?.toList)) :
        e ∈ s.inFlight ++ s.committed := by
      simp only [mem_append, Option.mem_toList] at he ⊢
      rcases he with he | he | he
      · exact .inl (mem_of_mem_eraseIdx he)
      · exact .inr he
      · exact .inl (mem_of_getElem? he)
    exact ⟨h.paired, fun e he => h.seq e (hmem e he), fun k n chan hn =>
      ⟨(h.registered k n chan hn).1, fun e he => (h.registered k n chan hn).2 e (hmem e he)⟩,
      h.answers⟩
  | handle k =>
    unfold Cluster.step
    dsimp only
    rcases hk : s.committed[(s.nodes k).handled]? with _ | ⟨proposer, seq, ps | _⟩
    · exact h
    · exact h.handle (mem_of_getElem? hk) (he _ hk) rfl
    · refine h.setNode k _ (h.paired k) rfl fun n chan hn => ?_
      rw [RaftNode.handleConfigChange, Map.lookup_erase'] at hn
      split_ifs at hn
      exact hn
  | restore k i store => exact h.setNode k _ (h.paired k) rfl fun _ _ hn => hn

def new (store : σ) (proposalBatchSize : ℕ) (proposalBatchTimeout : ℤ) : Cluster σ α ρ where
  nodes _ := { store, merger := { proposalBatchSize, proposalBatchTimeout } }

theorem inv_new (store : σ) (size : ℕ) (timeout : ℤ) :
    Inv (new store size timeout : Cluster σ α ρ) where
  paired _ := rfl
  seq _ he := nomatch he
  registered _ _ _ hn := by simp [new] at hn
  answers _ ha := nomatch ha

/-- In a run in which no node meets the number of one of its channels in an entry of another node,
every reply is the one to its own proposal. -/
theorem answers_own (apply : σ → α → ρ × σ) (store : σ) (size : ℕ) (timeout : ℤ)
    (events : List (Event σ α))
    (h : Along (step apply) NotForeign (new store size timeout : Cluster σ α ρ) events) :
    ((new store size timeout : Cluster σ α ρ).run apply events).AnswersOwn :=
  (h.invariant (fun _ e he hs => hs.step e he) (inv_new store size timeout)).answers

/-- Two nodes propose under the same number, and each handles only its own entry while it waits. -/
theorem answers_own_two :
    ((new () 1 0 : Cluster Unit String String).run (fun _ data => (data, ()))
      [.propose 1 "p" 0 0 true, .commit 0, .handle 1, .handle 2, .propose 2 "q" 0 0 true, .commit 0,
        .handle 1, .handle 2]).AnswersOwn := by
  refine answers_own _ () 1 0 _ ⟨trivial, trivial, ?_, ?_, trivial, trivial, ?_, ?_, trivial⟩
  all_goals
    intro e he hmem
    cases he
  · rfl
  · exact absurd hmem Finmap.notMem_empty
  · exact absurd hmem (by decide +kernel)
  · rfl

/-- The entry of node 1 is committed when node 2, the next leader, has registered a proposal under the
same number: the proposer of `"q"` gets the reply to `"p"`. -/
theorem wrong_answer :
    let s := (new () 1 0 : Cluster Unit String String).run (fun _ data => (data, ()))
      [.propose 1 "p" 0 0 true, .propose 2 "q" 0 0 true, .commit 0, .handle 2]
    s.answers = [{ chan := 1, proposal := 0, reply := "p" }] ∧ ¬ s.AnswersOwn := by
  intro s
  have hanswers : s.answers = [{ chan := 1, proposal := 0, reply := "p" }] := by decide +kernel
  refine ⟨hanswers, fun h => ?_⟩
  have := h { chan := 1, proposal := 0, reply := "p" } (by rw [hanswers]; exact List.mem_singleton_self _)
  cases this

end Cluster

end FerroMq.Raft
