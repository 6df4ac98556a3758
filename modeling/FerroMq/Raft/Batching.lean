import FerroMq.Raft.Reply

/-!
# Batches of proposals

`Merger` hands its proposals on in batches, and `handle_normal` applies a batch from its end.  A batch of
several is reversed, but a single proposal is taken from the back: with a batch size of one the newest is
applied first (`newest_applied_first`).  `inOrder_iff` says that this is the only way to lose the order.
-/

namespace FerroMq.Raft

open Lib List

variable {α χ σ ρ : Type}

/-! ## The order of `handle_normal` -/

def popPairs : List α → List χ → List (α × Option χ)
  | [], _ => []
  | data :: datas, chans => (data, chans.head?) :: popPairs datas chans.tail

/-- What `handle_normal` applies for a batch, each proposal with the channel for its reply. -/
def appliedPairs : Proposals α × ReplyChan χ → List (α × Option χ)
  | (.one data, .one chan) => [(data, some chan)]
  | (.one data, .more _) => [(data, none)]
  | (.more datas, .more chans) => popPairs datas.reverse chans.reverse
  | (.more datas, .one _) => popPairs datas.reverse []

theorem popPairs_eq_zip {datas : List α} {chans : List χ} (h : datas.length = chans.length) :
    popPairs datas chans = datas.zip (chans.map some) := by
  induction datas generalizing chans with
  | nil => rfl
  | cons data datas ih =>
    cases chans with
    | nil => exact nomatch h
    | cons chan chans => exact congrArg ((data, some chan) :: ·) (ih (Nat.succ.inj h))

section Handle

variable (apply : σ → α → ρ × σ)

theorem applyMore_eq (store : σ) (ps : List (Proposal α)) (chans : List ℕ) :
    (applyMore apply store ps chans).2 =
        (popPairs ps chans).foldl (fun store x => (apply store x.1.data).2) store ∧
      (applyMore apply store ps chans).1.map (fun a => (a.proposal, a.chan)) =
        (popPairs ps chans).filterMap fun x => x.2.map fun chan => (x.1.tag, chan) := by
  induction ps generalizing store chans with
  | nil => exact ⟨rfl, rfl⟩
  | cons p ps ih =>
    obtain ⟨hstore, hanswers⟩ := ih (apply store p.data).2 chans.tail
    refine ⟨hstore, ?_⟩
    cases chans with
    | nil => exact hanswers
    | cons chan chans => exact congrArg ((p.tag, chan) :: ·) hanswers

end Handle

/-! ## What `take` can do -/

namespace Merger

/-- Nothing; or a single proposal from the back, which is the only one unless the batch size is one; or
several from the front. -/
theorem take_cases {self : Merger α χ} (h : self.proposals.length = self.chans.length) (now later : ℤ) :
    ((self.proposalBatchSize = 1 → self.proposals = []) ∧ self.take now later = (none, self)) ∨
    (∃ ps p cs c, self.proposals = ps ++ [p] ∧ self.chans = cs ++ [c] ∧
      (ps = [] ∨ self.proposalBatchSize = 1) ∧ 1 ≤ self.proposalBatchSize ∧
      self.take now later = (some (.one p, .one c),
        { self with proposals := ps, chans := cs, startCollectionTime := later })) ∨
    (∃ len, 2 ≤ len ∧ len ≤ self.proposalBatchSize ∧
      self.take now later =
        (some (.more (self.proposals.take len).reverse, .more (self.chans.take len).reverse),
          { self with
            proposals := self.proposals.drop len
            chans := self.chans.drop len
            startCollectionTime := later })) := by
  unfold take
  dsimp only
  generalize hlen : (if self.proposals.length > self.proposalBatchSize then self.proposalBatchSize
    else self.proposals.length) = len
  have hle : len ≤ self.proposalBatchSize ∧ len ≤ self.proposals.length ∧
      (len = self.proposalBatchSize ∨ len = self.proposals.length) := by
    split_ifs at hlen <;> omega
  split_ifs with hfires hone
  · right; left
    obtain ⟨ps, p, hps⟩ := eq_nil_or_concat self.proposals |>.resolve_left fun hnil => by
      rw [hnil] at hle
      simp at hle
      omega
    obtain ⟨cs, c, hcs⟩ := eq_nil_or_concat self.chans |>.resolve_left fun hnil => by
      rw [hnil] at h
      simp at h
      simp [h] at hle
      omega
    rw [concat_eq_append] at hps hcs
    refine ⟨ps, p, cs, c, hps, hcs, ?_, by omega, ?_⟩
    · rcases hle.2.2 with hmax | hall
      · exact .inr (hmax.symm.trans hone)
      · left
        rw [hone, hps, length_append] at hall
        exact length_eq_zero_iff.1 (Nat.succ.inj hall.symm)
    · simp [hps, hcs]
  · exact .inr (.inr ⟨len, by omega, hle.1, rfl⟩)
  · refine .inl ⟨fun hsize => length_eq_zero_iff.1 ?_, rfl⟩
    omega

end Merger

/-! ## Adding and taking -/

/-- A merger, what was added to it, and the batches that were applied.  Every proposal has a channel of
its own: the number of the proposals before it. -/
structure Batching (α : Type) where
  merger : Merger α ℕ
  added : List (α × ℕ) := []
  batches : List (List (α × Option ℕ)) := []

namespace Batching

inductive Call (α : Type)
  | add (proposal : α)
  | take (now later : ℤ)

def step (s : Batching α) : Call α → Batching α
  | .add proposal =>
    { s with
      merger := s.merger.add proposal s.added.length
      added := s.added ++ [(proposal, s.added.length)] }
  | .take now later =>
    match s.merger.take now later with
    | (some batch, merger) => { s with merger, batches := s.batches ++ [appliedPairs batch] }
    | (none, merger) => { s with merger }

def start (proposalBatchSize : ℕ) (proposalBatchTimeout : ℤ) : Batching α where
  merger := { proposalBatchSize, proposalBatchTimeout }

def waiting (s : Batching α) : List (α × Option ℕ) :=
  s.merger.proposals.zip (s.merger.chans.map some)

/-- What was applied and what is waiting is what was added, in this order and with these channels, and
no batch was too large. -/
structure InOrder (s : Batching α) : Prop where
  order : s.batches.flatten ++ s.waiting = s.added.map fun x => (x.1, some x.2)
  size : ∀ batch ∈ s.batches, batch.length ≤ s.merger.proposalBatchSize

/-- With a batch size of one, a single proposal is taken only if no other is waiting. -/
def Alone (s : Batching α) : Call α → Prop
  | .add _ => True
  | .take _ _ => s.merger.proposalBatchSize = 1 → s.merger.proposals.length ≤ 1

/-- Every proposal waits with a channel, and the channels are the numbers of the proposals. -/
structure Paired (s : Batching α) : Prop where
  length : s.merger.proposals.length = s.merger.chans.length
  number : s.added.map Prod.snd = List.range s.added.length

variable {s : Batching α}

theorem paired_start (size : ℕ) (timeout : ℤ) : (start size timeout : Batching α).Paired := ⟨rfl, rfl⟩

theorem Paired.step (h : s.Paired) (call : Call α) : (s.step call).Paired := by
  cases call with
  | add proposal =>
    refine ⟨?_, ?_⟩
    · simp [Batching.step, Merger.add, h.length]
    · simp [Batching.step, h.number, range_succ]
  | take now later =>
    rcases s.merger.take_cases h.length now later with ⟨-, heq⟩ |
      ⟨ps, p, cs, c, hps, hcs, -, -, heq⟩ | ⟨len, -, -, heq⟩
    · simp only [Batching.step, heq]
      exact h
    · simp only [Batching.step, heq]
      have hlength := h.length
      rw [hps, hcs, length_append, length_append] at hlength
      exact ⟨Nat.succ.inj hlength, h.number⟩
    · simp only [Batching.step, heq]
      exact ⟨by simp [h.length], h.number⟩

theorem waiting_add (h : s.Paired) (proposal : α) :
    (s.step (.add proposal)).waiting = s.waiting ++ [(proposal, some s.added.length)] := by
  unfold waiting
  simp only [step, Merger.add, map_append]
  rw [zip_append (by rw [length_map]; exact h.length)]
  rfl

theorem inOrder_add (h : s.Paired) (hs : s.InOrder) (proposal : α) :
    (s.step (.add proposal)).InOrder := by
  refine ⟨?_, hs.size⟩
  rw [waiting_add h, ← append_assoc]
  simp only [step, hs.order, map_append]
  rfl

theorem nodup_waiting (h : s.Paired) (hs : s.InOrder) : (s.waiting.map Prod.snd).Nodup := by
  have hall : ((s.added.map fun x => (x.1, some x.2)).map Prod.snd).Nodup := by
    rw [map_map]
    change (s.added.map (some ∘ Prod.snd)).Nodup
    rw [← map_map, h.number]
    exact (nodup_range).map (Option.some_injective ℕ)
  rw [← hs.order, map_append] at hall
  exact (nodup_append.1 hall).2.1

theorem inOrder_takeMore (h : s.Paired) (hs : s.InOrder) {len : ℕ}
    (hsize : len ≤ s.merger.proposalBatchSize) (later : ℤ) :
    InOrder { s with
      merger := { s.merger with
        proposals := s.merger.proposals.drop len
        chans := s.merger.chans.drop len
        startCollectionTime := later }
      batches := s.batches ++ [appliedPairs (.more (s.merger.proposals.take len).reverse,
        .more (s.merger.chans.take len).reverse)] } := by
  have happlied : appliedPairs (.more (s.merger.proposals.take len).reverse,
      .more (s.merger.chans.take len).reverse) = s.waiting.take len := by
    simp only [appliedPairs, reverse_reverse]
    rw [popPairs_eq_zip (by simp [h.length]), map_take]
    exact take_zipWith.symm
  constructor
  · simp only [happlied, flatten_append, flatten_singleton, waiting, append_assoc]
    have hdrop : (s.merger.proposals.drop len).zip ((s.merger.chans.drop len).map some) =
        (s.merger.proposals.zip (s.merger.chans.map some)).drop len := by
      rw [map_drop]
      exact drop_zipWith.symm
    rw [hdrop, take_append_drop]
    exact hs.order
  · intro batch hbatch
    rcases mem_append.1 hbatch with hold | hnew
    · exact hs.size batch hold
    · rw [mem_singleton.1 hnew, happlied, length_take]
      exact (Nat.min_le_left _ _).trans hsize

theorem inOrder_takeOne_iff (h : s.Paired) (hs : s.InOrder) {ps : List α} {p : α} {cs : List ℕ} {c : ℕ}
    (hps : s.merger.proposals = ps ++ [p]) (hcs : s.merger.chans = cs ++ [c])
    (hsize : 1 ≤ s.merger.proposalBatchSize) (later : ℤ) :
    InOrder { s with
      merger := { s.merger with proposals := ps, chans := cs, startCollectionTime := later }
      batches := s.batches ++ [appliedPairs (.one p, .one c)] } ↔ ps = [] := by
  have hlength : ps.length = cs.length := by
    have := h.length
    rw [hps, hcs, length_append, length_append] at this
    exact Nat.succ.inj this
  have hwaiting : s.waiting = ps.zip (cs.map some) ++ [(p, some c)] := by
    rw [waiting, hps, hcs, map_append, zip_append (by rw [length_map, hlength])]
    rfl
  constructor
  · intro hnew
    have hnodup := nodup_waiting h hs
    have heq : (p, some c) :: ps.zip (cs.map some) = ps.zip (cs.map some) ++ [(p, some c)] := by
      have horder := hnew.order.trans hs.order.symm
      simp only [flatten_append, flatten_singleton, append_assoc] at horder
      rw [← hwaiting]
      exact append_cancel_left horder
    rw [hwaiting] at hnodup
    cases ps with
    | nil => rfl
    | cons q ps =>
      cases cs with
      | nil => exact nomatch hlength
      | cons d cs =>
        -- the newest channel would be the oldest one
        have hhead := (List.cons.inj heq).1
        rw [hhead] at hnodup
        simp at hnodup
  · rintro rfl
    obtain rfl : cs = [] := length_eq_zero_iff.1 hlength.symm
    constructor
    · rw [← hs.order, hwaiting]
      simp [appliedPairs, waiting]
    · intro batch hbatch
      rcases mem_append.1 hbatch with hold | hnew
      · exact hs.size batch hold
      · rw [mem_singleton.1 hnew]
        exact hsize

theorem inOrder_step_iff (h : s.Paired) (hs : s.InOrder) (call : Call α) :
    (s.step call).InOrder ↔ s.Alone call := by
  cases call with
  | add proposal => exact iff_of_true (inOrder_add h hs proposal) trivial
  | take now later =>
    rcases s.merger.take_cases h.length now later with ⟨hnone, heq⟩ |
      ⟨ps, p, cs, c, hps, hcs, hone, hsize, heq⟩ | ⟨len, hlen, hsize, heq⟩
    · simp only [step, heq]
      exact iff_of_true hs fun hone => by simp [hnone hone]
    · simp only [step, heq]
      rw [inOrder_takeOne_iff h hs hps hcs hsize, Alone, hps, length_append]
      constructor
      · rintro rfl _
        exact le_rfl
      · intro halone
        refine hone.elim id fun hone => length_eq_zero_iff.1 ?_
        exact Nat.le_zero.1 (Nat.le_of_succ_le_succ (halone hone))
    · simp only [step, heq]
      exact iff_of_true (inOrder_takeMore h hs hsize later) fun hone => by omega

/-- The proposals are applied in the order in which they were added, each once and with its channel, in
batches of at most the batch size, exactly if no single proposal is taken from behind others. -/
theorem inOrder_iff (size : ℕ) (timeout : ℤ) (calls : List (Call α)) :
    (∀ pre, pre <+: calls → (pre.foldl step (start size timeout)).InOrder) ↔
      Along step Alone (start size timeout) calls := by
  have hinv : ∀ (s : Batching α) (call : Call α), s.Paired → (s.step call).Paired :=
    fun _ call h => h.step call
  have hstart : (start size timeout : Batching α).InOrder := ⟨rfl, nofun⟩
  exact forall_prefix_iff_along hinv (fun _ call h hs => inOrder_step_iff h hs call)
    (paired_start size timeout) hstart calls

/-- Two proposals wait, and with a batch size of one the second is applied before the first. -/
theorem newest_applied_first :
    let s := [Call.add "first", .add "second", .take 1 1, .take 2 2].foldl step (start 1 0)
    s.batches = [[("second", some 1)], [("first", some 0)]] ∧ ¬ s.InOrder := by
  intro s
  have hbatches : s.batches = [[("second", some 1)], [("first", some 0)]] := by decide +kernel
  refine ⟨hbatches, fun h => ?_⟩
  have horder := h.order
  rw [hbatches] at horder
  exact absurd horder (by decide +kernel)

end Batching

end FerroMq.Raft
