import FerroMq.Lib.Trie
import FerroMq.Topic.Basic

/-!
# The tree of retained messages

The trie of `retain.rs`: a stored message sits at the node of its topic, and a lookup walks a topic filter over
the stored topics.
-/

namespace FerroMq

open Lib

universe u v

/-- A node of the retained tree may hold one value. -/
instance {V : Type u} : Payload (Option V) where
  vacant := none
  isVacant := Option.isNone
  isVacant_iff := fun _ => Option.isNone_iff_eq_none

abbrev RetainTree (V : Type u) := Trie Level (Option V)

namespace RetainTree

variable {V : Type u} {σ : Type v}

def insert (t : RetainTree V) (topic : Topic) (value : V) : RetainTree V :=
  (t.upsert (fun _ => (some value, ())) topic.levels).1

def remove (t : RetainTree V) (topic : Topic) : RetainTree V × Option V :=
  t.prune (fun old => (none, old)) none topic.levels

/-! ## Retaining by a predicate -/

/-- A predicate that may change the value it looks at and keeps a state of its own: it returns
whether to keep the value, the value and the new state. -/
abbrev Keep (V : Type u) (σ : Type v) := σ → V → Bool × V × σ

def visit (f : Keep V σ) (child : RetainTree V) (s : σ) (removeds : ℕ) : RetainTree V × σ × ℕ :=
  match child.payload with
  | none => (child, s, removeds)
  | some v =>
    match f s v with
    | (true, v', s') => (.node (some v') child.branches, s', removeds)
    | (false, _, s') => (.node none child.branches, s', removeds + 1)

mutual

def retainNode (f : Keep V σ) (maxLimit : ℕ) :
    RetainTree V → σ → ℕ → RetainTree V × σ × ℕ
  | .node value branches, s, removeds =>
    if removeds ≥ maxLimit then (.node value branches, s, removeds)
    else
      let (branches', s', removeds') := retainBranches f maxLimit branches s removeds
      (.node value branches', s', removeds')

def retainBranches (f : Keep V σ) (maxLimit : ℕ) :
    List (Level × RetainTree V) → σ → ℕ → List (Level × RetainTree V) × σ × ℕ
  | [], s, removeds => ([], s, removeds)
  | (k, child) :: branches, s, removeds =>
    let (child, s, removeds) := retainNode f maxLimit child s removeds
    let (child, s, removeds) := visit f child s removeds
    let (branches, s, removeds) := retainBranches f maxLimit branches s removeds
    (if child.isBare then branches else (k, child) :: branches, s, removeds)

end

/-- Drop the values that the predicate refuses; the search goes into no further node once
`maxLimit` values are gone.  Returns the tree, the state of the predicate and the number of values
removed. -/
def retain (t : RetainTree V) (maxLimit : ℕ) (f : Keep V σ) (s : σ) : RetainTree V × σ × ℕ :=
  retainNode f maxLimit t s 0

/-! ## Lookup -/

def addToOut (levels : List Level) (value : Option V) : List (Topic × V) :=
  (value.map fun v => (⟨levels⟩, v)).toList

def skips (subPath : List Level) (k : Level) : Bool :=
  subPath.isEmpty && k ≠ .blank && k.isMetadata

def addParent (rest subPath : List Level) (value : Option V) : List (Topic × V) :=
  if rest.head? = some .multiWildcard then addToOut subPath value else []

/-- `_matches`: what a call appends to `out`, in order. -/
def collect (t : RetainTree V) (path subPath : List Level) : List (Topic × V) :=
  if t.branches.isEmpty || path.isEmpty then
    if path.isEmpty then addToOut subPath t.payload else []
  else
    match path with
    | [] => []
    | level :: rest =>
      match h : t.child level with
      | some r =>
        have := Trie.sizeOf_child_lt h
        addParent rest (subPath ++ [level]) r.payload ++ collect r rest (subPath ++ [level])
      | none =>
        if level = .singleWildcard then
          t.branches.attach.flatMap fun ⟨(k, v), hb⟩ =>
            have := Trie.sizeOf_branch_lt hb
            if skips subPath k then []
            else addParent rest (subPath ++ [k]) v.payload ++ collect v rest (subPath ++ [k])
        else if level = .multiWildcard then
          t.branches.attach.flatMap fun ⟨(k, v), hb⟩ =>
            have := Trie.sizeOf_branch_lt hb
            if skips subPath k then []
            else if v.branches.isEmpty then addToOut (subPath ++ [k]) v.payload
            else addToOut (subPath ++ [k]) v.payload ++
              collect v (level :: rest) (subPath ++ [k])
        else []
termination_by sizeOf t

def «matches» (t : RetainTree V) (topic : Topic) : List (Topic × V) := collect t topic.levels []

end RetainTree

end FerroMq
