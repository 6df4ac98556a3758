import Mathlib

/-!
# Proposals and their batches

One message or a batch of messages in reverse order, which are applied from the end.  `Merger` collects
proposals and the channels for the replies.
-/

namespace FerroMq.Raft

inductive Proposals (α : Type)
  | one (data : α)
  | more (datas : List α)
  deriving DecidableEq

def Proposals.inOrder {α : Type} : Proposals α → List α
  | one data => [data]
  | more datas => datas.reverse

inductive ReplyChan (χ : Type)
  | one (chan : χ)
  | more (chans : List χ)
  deriving DecidableEq

structure Merger (α χ : Type) where
  proposals : List α := []
  chans : List χ := []
  startCollectionTime : ℤ := 0
  proposalBatchSize : ℕ
  proposalBatchTimeout : ℤ

namespace Merger

variable {α χ : Type}

def add (self : Merger α χ) (proposal : α) (chan : χ) : Merger α χ :=
  { self with proposals := self.proposals ++ [proposal], chans := self.chans ++ [chan] }

def timeout (self : Merger α χ) (now : ℤ) : Bool :=
  now > self.startCollectionTime + self.proposalBatchTimeout

def take (self : Merger α χ) (now later : ℤ) : Option (Proposals α × ReplyChan χ) × Merger α χ :=
  let max := self.proposalBatchSize
  let len := if self.proposals.length > max then max else self.proposals.length
  if len > 0 ∧ (len = max ∨ self.timeout now = true) then
    if len = 1 then
      -- there are as many channels as proposals, so both are there
      match self.proposals.getLast?, self.chans.getLast? with
      | some proposal, some chan =>
        (some (.one proposal, .one chan),
          { self with
            proposals := self.proposals.dropLast
            chans := self.chans.dropLast
            startCollectionTime := later })
      | _, _ => (none, self)
    else
      (some (.more (self.proposals.take len).reverse, .more (self.chans.take len).reverse),
        { self with
          proposals := self.proposals.drop len
          chans := self.chans.drop len
          startCollectionTime := later })
  else (none, self)

end Merger

end FerroMq.Raft
