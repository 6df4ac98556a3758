import FerroMq.Lib.Trie
import FerroMq.Topic.Match

/-!
# The subscription tree

`TopicTree` of `trie.rs`: a trie over levels whose nodes hold sets of values.  `matches` is the lazy iterator
`MatchedIter` with its state: the node and the part of the topic it stands at, the path so far (absent once the
node has been expanded), the items ready to be returned and the iterators of the branches.
-/

namespace FerroMq

open Lib

universe u

variable {V : Type u} [LinearOrder V]

instance : Payload (Finset V) where
  vacant := ∅
  isVacant s := decide (s = ∅)
  isVacant_iff _ := decide_eq_true_iff

/-- The subscription tree: a set of values for each filter. -/
abbrev TopicTree (V : Type u) := Trie Level (Finset V)

namespace TopicTree

/-- Add a value to a filter; the answer says whether it is new. -/
def insert (t : TopicTree V) (topicFilter : Topic) (value : V) : TopicTree V × Bool :=
  t.upsert (fun values => (Insert.insert value values, decide (value ∉ values))) topicFilter.levels

/-- Remove a value from a filter; the answer says whether it was there. -/
def remove (t : TopicTree V) (topicFilter : Topic) (value : V) : TopicTree V × Bool :=
  t.prune (fun values => (values.erase value, decide (value ∈ values))) false topicFilter.levels

theorem get_insert (t : TopicTree V) (f : Topic) (v : V) (ks : List Level) :
    (t.insert f v).1.get ks = if ks = f.levels then Insert.insert v (t.get ks) else t.get ks := by
  rw [insert, Trie.get_upsert]
  split_ifs with h
  · rw [h]
  · rfl

theorem get_remove (t : TopicTree V) (f : Topic) (v : V) (ks : List Level) :
    (t.remove f v).1.get ks = if ks = f.levels then (t.get ks).erase v else t.get ks := by
  rw [remove, Trie.get_prune (by simp [Payload.vacant])]
  split_ifs with h
  · rw [h]
  · rfl

end TopicTree

/-- What the iterator returns: a filter and its values in order. -/
abbrev Item (V : Type u) := List Level × List V

abbrev valueList (values : Finset V) : List V := values.sort

structure MatchedIter (V : Type u) where
  node : TopicTree V
  path : List Level
  subPath : Option (List Level)
  currItems : List (Item V)
  subIters : List (MatchedIter V)

namespace MatchedIter

def new (node : TopicTree V) (path subPath : List Level) : MatchedIter V :=
  ⟨node, path, some subPath, [], []⟩

def addToItems (it : MatchedIter V) (levels : List Level) (values : Finset V) : MatchedIter V :=
  if values = ∅ then it else { it with currItems := it.currItems ++ [(levels, valueList values)] }

def addMulti (it : MatchedIter V) (subPath : List Level) : MatchedIter V :=
  match it.node.child .multiWildcard with
  | some b => if b.payload = ∅ then it else it.addToItems (subPath ++ [.multiWildcard]) b.payload
  | none => it

def addSub (it : MatchedIter V) (level : Level) (rest subPath : List Level) : MatchedIter V :=
  match it.node.child level with
  | some b => { it with subIters := it.subIters ++ [new b rest (subPath ++ [level])] }
  | none => it

/-- Topics that start with `$` cannot be matched with filters that start with a wildcard. -/
def shields (it : MatchedIter V) (level : Level) (subPath : List Level) : Bool :=
  subPath.isEmpty && level ≠ .blank && level.isMetadata &&
    ((it.node.child .multiWildcard).isSome || (it.node.child .singleWildcard).isSome)

/-- Expand the node: collect the items that end here and the iterators of the branches. -/
def prepare (it : MatchedIter V) (subPath : List Level) : MatchedIter V :=
  match it.path with
  | [] =>
    { (it.addMulti subPath).addToItems subPath it.node.payload with subPath := none }
  | level :: rest =>
    let it := if it.shields level subPath then it
      else (it.addMulti subPath).addSub .singleWildcard rest subPath
    { it.addSub level rest subPath with subPath := none }

/-- The loop over `sub_iters`: iterators that are exhausted are dropped. -/
def nextSub (next : MatchedIter V → Option (Item V) × MatchedIter V) :
    List (MatchedIter V) → Option (Item V) × List (MatchedIter V)
  | [] => (none, [])
  | s :: ss =>
    match next s with
    | (some item, s) => (some item, s :: ss)
    | (none, _) => nextSub next ss

def nextItem (next : MatchedIter V → Option (Item V) × MatchedIter V) (it : MatchedIter V) :
    Option (Item V) × MatchedIter V :=
  match it.currItems.getLast? with
  | some item => (some item, { it with currItems := it.currItems.dropLast })
  | none =>
    let r := nextSub next it.subIters
    (r.1, { it with subIters := r.2 })

/-- `next` for iterators nested at most `depth` deep. -/
def nextAt : ℕ → MatchedIter V → Option (Item V) × MatchedIter V
  | 0, it => (none, it)
  | depth + 1, it =>
    match nextItem (nextAt depth) it with
    | (some item, it) => (some item, it)
    | (none, it) =>
      match it.subPath with
      | none => (none, it)
      | some subPath => nextItem (nextAt depth) (it.prepare subPath)

/-- One call of the iterator.  The iterators below it stand at shorter paths, so that the length of
its path bounds the nesting. -/
def next (it : MatchedIter V) : Option (Item V) × MatchedIter V := nextAt (it.path.length + 1) it

/-- `items` is what calling `next` until it returns nothing produces. -/
inductive Yields : MatchedIter V → List (Item V) → Prop
  | done {it : MatchedIter V} : it.next.1 = none → Yields it []
  | item {it it' : MatchedIter V} {a : Item V} {as : List (Item V)} :
      it.next = (some a, it') → Yields it' as → Yields it (a :: as)

end MatchedIter

namespace TopicTree

/-- The iterator over the filters that match `topic`. -/
def «matches» (t : TopicTree V) (topic : Topic) : MatchedIter V :=
  MatchedIter.new t topic.levels []

def isMatch (t : TopicTree V) (topic : Topic) : Bool := (t.matches topic).next.1.isSome

end TopicTree

end FerroMq
