import FerroMq.Lib.TriePaths
import FerroMq.Topic.Tree

/-!
# The contents of the subscription tree

The tree as a set of filters with values: `represents` says what any sequence of `insert` and `remove` leaves in it,
with any levels in the filters.
-/

namespace FerroMq.TopicTree

open Lib List

universe u

variable {V : Type u}

mutual

def valuesSize : TopicTree V → ℕ
  | .node values branches => values.card + branchesSize branches

def branchesSize : List (Level × TopicTree V) → ℕ
  | [] => 0
  | (_, n) :: branches => valuesSize n + branchesSize branches

end

theorem branchesSize_eq (bs : List (Level × TopicTree V)) :
    branchesSize bs = (bs.map fun b => b.2.valuesSize).sum := by
  induction bs with
  | nil => rfl
  | cons b bs ih => rw [branchesSize, ih, map_cons, sum_cons]

variable [LinearOrder V]

def entries (t : TopicTree V) : List (Topic × V) :=
  t.paths.flatMap fun ks => (valueList (t.get ks)).map fun v => (⟨ks⟩, v)

/-- No key twice at a node. -/
abbrev Keyed (t : TopicTree V) : Prop := Trie.Wf (fun _ => True) t

variable {t : TopicTree V}

theorem mem_entries (h : t.Keyed) {f : Topic} {v : V} : (f, v) ∈ t.entries ↔ v ∈ t.get f.levels := by
  simp only [entries, mem_flatMap, mem_map, Finset.mem_sort, Prod.mk.injEq]
  constructor
  · rintro ⟨ks, -, v, hv, rfl, rfl⟩
    exact hv
  · intro hv
    have hks : f.levels ∈ t.paths := h.mem_paths.2 (Finset.ne_empty_of_mem hv)
    exact ⟨f.levels, hks, v, hv, rfl, rfl⟩

theorem nodup_entries (h : t.Keyed) : t.entries.Nodup := by
  rw [entries, nodup_flatMap]
  constructor
  · intro ks _
    exact (Finset.sort_nodup _ _).map fun v v' heq => (Prod.mk.inj heq).2
  · refine h.nodup_paths.imp fun {ks ks'} hne e he he' => ?_
    obtain ⟨_, -, rfl⟩ := mem_map.1 he
    obtain ⟨_, -, heq⟩ := mem_map.1 he'
    exact hne (congrArg Topic.levels (Prod.mk.inj heq).1).symm

theorem length_entries (t : TopicTree V) : t.entries.length = (t.paths.map fun ks => (t.get ks).card).sum := by
  simp only [entries, length_flatMap, length_map, Finset.length_sort]

theorem valuesSize_eq (h : t.Keyed) : t.valuesSize = t.entries.length := by
  induction t using Trie.branchInduction with
  | node t ih =>
    obtain ⟨values, bs⟩ := t
    have hbelow : branchesSize bs =
        ((Trie.pathsBelow bs).map fun ks => (Trie.get (.node values bs) ks).card).sum := by
      rw [branchesSize_eq, Trie.pathsBelow_eq, map_flatMap, flatMap_def, sum_flatten, map_map]
      refine congrArg List.sum (map_congr_left fun b hb => ?_)
      have hchild := h.child_eq_some (k := b.1) (c := b.2) hb
      simp only [ih b hb (h.branch hb), length_entries, Function.comp_apply, map_map, Trie.get_cons, hchild,
        Option.map_some, Option.getD_some, Function.comp_def]
    rw [valuesSize, hbelow, length_entries, Trie.paths, map_append, sum_append, add_comm]
    refine congrArg _ ?_
    split_ifs with hvac
    · simp [(Payload.isVacant_iff values).1 hvac, Payload.vacant]
    · simp

/-! ## Sequences of calls -/

inductive Call (V : Type u)
  | insert (f : Topic) (v : V)
  | remove (f : Topic) (v : V)

def exec (t : TopicTree V) : Call V → TopicTree V
  | .insert f v => (t.insert f v).1
  | .remove f v => (t.remove f v).1

/-- The pairs inserted and not removed since, after one more call. -/
def Call.onSet (S : Finset (Topic × V)) : Call V → Finset (Topic × V)
  | .insert f v => Insert.insert (f, v) S
  | .remove f v => S.erase (f, v)

/-- The tree holds the pairs of a set, and no branch leads to none. -/
structure Represents (t : TopicTree V) (S : Finset (Topic × V)) : Prop where
  keyed : t.Keyed
  pruned : t.Pruned
  mem : ∀ f v, v ∈ t.get f.levels ↔ (f, v) ∈ S

variable {S : Finset (Topic × V)}

theorem represents_empty : Represents (Trie.empty : TopicTree V) ∅ where
  keyed := Trie.wf_empty _
  pruned := .empty
  mem f v := by simp [Payload.vacant]

theorem Represents.exec (h : t.Represents S) (c : Call V) : (t.exec c).Represents (c.onSet S) := by
  have hlevels (f f' : Topic) : f'.levels = f.levels ↔ f' = f := (Topic.mk.injEq ..).symm.to_iff
  cases c with
  | insert f v =>
    refine ⟨h.keyed.upsert _ fun _ _ => trivial, h.pruned.upsert (Finset.insert_ne_empty _ _), fun f' v' => ?_⟩
    rw [TopicTree.exec, get_insert, Call.onSet, Finset.mem_insert, Prod.mk.injEq, ← hlevels, ← h.mem]
    split_ifs with heq
    all_goals simp [heq]
  | remove f v =>
    refine ⟨h.keyed.prune _ _ _, h.pruned.prune _ _ _, fun f' v' => ?_⟩
    rw [TopicTree.exec, get_remove, Call.onSet, Finset.mem_erase, ne_eq, Prod.mk.injEq, ← hlevels, ← h.mem]
    split_ifs with heq
    all_goals simp [heq]

theorem Represents.remove_snd (h : t.Represents S) (f : Topic) (v : V) :
    (t.remove f v).2 = decide ((f, v) ∈ S) :=
  (Trie.prune_snd (by simp [Payload.vacant]) t f.levels).trans (decide_eq_decide.2 (h.mem f v))

theorem Represents.valuesSize (h : t.Represents S) : t.valuesSize = S.card := by
  have hset : t.entries.toFinset = S := by
    ext ⟨f, v⟩
    rw [mem_toFinset, mem_entries h.keyed, h.mem]
  rw [valuesSize_eq h.keyed, ← hset, toFinset_card_of_nodup (nodup_entries h.keyed)]

/-- After any calls the walk finds the pairs that were inserted and not removed since, each once; their number is
`values_size`, and a removal answers whether its pair is among them. -/
theorem represents (calls : List (Call V)) :
    let t : TopicTree V := calls.foldl exec Trie.empty
    let S : Finset (Topic × V) := calls.foldl Call.onSet ∅
    (t.entries.Nodup ∧ ∀ e, e ∈ t.entries ↔ e ∈ S) ∧ (∀ f v, (t.remove f v).2 = true ↔ (f, v) ∈ S) ∧
      t.valuesSize = S.card ∧ t.Pruned := by
  intro t S
  have h : t.Represents S := by
    suffices hrun : ∀ (calls : List (Call V)) (t : TopicTree V) (S : Finset (Topic × V)), t.Represents S →
        (calls.foldl exec t).Represents (calls.foldl Call.onSet S) from hrun calls _ _ represents_empty
    intro calls
    induction calls with
    | nil => exact fun _ _ h => h
    | cons c calls ih => exact fun _ _ h => ih _ _ (h.exec c)
  refine ⟨⟨nodup_entries h.keyed, fun ⟨f, v⟩ => ?_⟩, fun f v => ?_, h.valuesSize, h.pruned⟩
  · rw [mem_entries h.keyed, h.mem]
  · rw [h.remove_snd, decide_eq_true_iff]

end FerroMq.TopicTree
