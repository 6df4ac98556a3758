import FerroMq.Topic.TreeIter

/-!
# Matching a topic against the subscription tree

After any sequence of insertions and removals the tree holds exactly the pairs that the sequence leaves
(`TopicTree.get_run`), and iterating the matches of a topic returns every stored filter that matches it, once,
with all its values.
-/

namespace FerroMq

open Lib List

universe u

variable {V : Type u} [LinearOrder V]

/-! ## The matches below a node -/

variable {vs : List V} {node : TopicTree V} {l : Level} {path : List Level}

theorem mem_valueItem {p q : List Level} {s : Finset V} :
    (p, vs) ∈ valueItem q s ↔ p = q ∧ s ≠ ∅ ∧ vs = s.sort := by
  unfold valueItem
  split_ifs with h
  · simp [h]
  · simp [h]

theorem mem_multiItem {p : List Level} {sub : List Level} :
    (p, vs) ∈ multiItem node sub ↔ p = sub ++ [.multiWildcard] ∧
      node.get [.multiWildcard] ≠ ∅ ∧ vs = (node.get [.multiWildcard]).sort :=
  mem_valueItem

/-- `(p, vs)` is the item of a filter `f` stored below `node`, reached along `sub`. -/
def IsItem (node : TopicTree V) (sub f p : List Level) (vs : List V) : Prop :=
  p = sub ++ f ∧ node.get f ≠ ∅ ∧ vs = valueList (node.get f)

theorem isItem_cons_iff {b : TopicTree V} (h : node.child l = some b) {sub f p : List Level} :
    IsItem node sub (l :: f) p vs ↔ IsItem b (sub ++ [l]) f p vs := by
  simp [IsItem, Trie.get_cons, h]

theorem not_isItem_of_child_none (h : node.child l = none)
    {sub f p : List Level} : ¬ IsItem node sub (l :: f) p vs := by
  simp [IsItem, Trie.get_cons, h, Payload.vacant]

/-- `#` is only the last level. -/
def MultiLast (path : List Level) : Prop :=
  ∀ i, path[i]? = some .multiWildcard → i + 1 = path.length

theorem MultiLast.tail (h : MultiLast (l :: path)) : MultiLast path := fun i hi => by
  have := h (i + 1) hi
  simpa using this

theorem MultiLast.eq_nil (h : MultiLast (.multiWildcard :: path)) : path = [] := by
  have := h 0 rfl
  simpa using this

theorem isWildcard_of_isMetadata (h : l.isMetadata = true) : l.isWildcard = false := by
  cases l <;> first | rfl | exact nomatch h

/-- The items below a node are those of the stored filters that cover the topic, except that at
the root (no path collected yet) the `$` rule holds.  A `#` in the topic is looked for like any other
level, so that it must not be followed by another one in a stored filter. -/
theorem mem_matchItems_of_multiLast (hpath : MultiLast path)
    (node : TopicTree V) (hnode : .multiWildcard ∈ path → ∀ f, node.get f ≠ ∅ → MultiLast f)
    (sub p : List Level) (vs : List V) : (p, vs) ∈ matchItems node path sub ↔
      ∃ f, IsItem node sub f p vs ∧ Covers f path ∧ (sub = [] → ¬ Shielded f path) := by
  induction path generalizing node sub with
  | nil =>
    rw [matchItems_nil, mem_append, mem_valueItem, mem_multiItem]
    constructor
    · rintro (⟨rfl, hne, rfl⟩ | h)
      · exact ⟨[], ⟨by simp, by simpa using hne, by simp⟩, .nil, fun _ => not_shielded_nil_right _⟩
      · exact ⟨_, h, .multi [], fun _ => not_shielded_nil_right _⟩
    · rintro ⟨f, ⟨hp, hne, hvs⟩, hc, -⟩
      rcases covers_nil_right_iff.1 hc with rfl | rfl
      · exact Or.inl ⟨by simpa using hp, by simpa using hne, by simpa using hvs⟩
      · exact Or.inr ⟨hp, hne, hvs⟩
  | cons l path ih =>
    -- the matches below one branch, once the path is not empty any more
    have hbranch : ∀ k, (p, vs) ∈ branchItems node k path sub ↔
        ∃ f, IsItem node sub (k :: f) p vs ∧ Covers f path := by
      intro k
      unfold branchItems
      rcases hc : node.child k with _ | b
      · simp [not_isItem_of_child_none hc]
      · have hb : .multiWildcard ∈ path → ∀ f, b.get f ≠ ∅ → MultiLast f := fun hmem f hf =>
          (hnode (mem_cons_of_mem l hmem) (k :: f) (by simpa [Trie.get_cons, hc] using hf)).tail
        simp [isItem_cons_iff hc, ih hpath.tail b hb]
    have hshield : ∀ k f, Shielded (k :: f) (l :: path) ↔
        k.isWildcard = true ∧ l.isMetadata = true := fun k f => shielded_cons_iff
    rw [matchItems_cons, mem_append, hbranch]
    by_cases hm : (sub.isEmpty && l.isMetadata) = true
    · rw [if_pos hm]
      simp only [Bool.and_eq_true, List.isEmpty_iff] at hm
      have hl : l.isWildcard = false := isWildcard_of_isMetadata hm.2
      constructor
      · rintro (h | ⟨f, hi, hc⟩)
        · simp at h
        · refine ⟨_, hi, .exact hl hc, fun _ => ?_⟩
          simp [hshield, hl]
      · rintro ⟨f, hi, hc, hs⟩
        right
        rcases (covers_cons_right_iff hl).1 hc with rfl | ⟨f', rfl, -⟩ | ⟨f', rfl, hc'⟩
        · exact absurd ((hshield _ _).2 ⟨rfl, hm.2⟩) (hs hm.1)
        · exact absurd ((hshield _ _).2 ⟨rfl, hm.2⟩) (hs hm.1)
        · exact ⟨f', hi, hc'⟩
    · have hs : ∀ f, sub = [] → ¬ Shielded f (l :: path) := by
        rintro f rfl ⟨a, b, -, hb, -, hmeta⟩
        cases hb
        simp [hmeta] at hm
      -- what is found below the branch of the level itself is covered, also if it is a wildcard
      have hlevel : ∀ f, IsItem node sub (l :: f) p vs → Covers f path → Covers (l :: f) (l :: path) := by
        intro f hi hc
        cases l with
        | singleWildcard => exact .single _ hc
        | multiWildcard =>
          obtain rfl := (hnode mem_cons_self _ hi.2.1).eq_nil
          exact .multi _
        | _ => exact .exact rfl hc
      rw [if_neg hm, mem_append, mem_multiItem, hbranch]
      constructor
      · rintro ((h | ⟨f, hi, hc⟩) | ⟨f, hi, hc⟩)
        · exact ⟨_, h, .multi _, hs _⟩
        · exact ⟨_, hi, .single l hc, hs _⟩
        · exact ⟨_, hi, hlevel f hi hc, hs _⟩
      · rintro ⟨f, hi, hc, -⟩
        cases hc with
        | multi => exact Or.inl (Or.inl hi)
        | single _ hc' => exact Or.inl (Or.inr ⟨_, hi, hc'⟩)
        | exact _ hc' => exact Or.inr ⟨_, hi, hc'⟩

theorem multiLast_of_wildcardFree (h : ∀ l ∈ path, l.isWildcard = false) :
    MultiLast path := fun _ hi => nomatch h _ (mem_of_getElem? hi)

theorem mem_matchItems (hpath : ∀ l ∈ path, l.isWildcard = false)
    (node : TopicTree V) (sub p : List Level) (vs : List V) : (p, vs) ∈ matchItems node path sub ↔
      ∃ f, IsItem node sub f p vs ∧ Covers f path ∧ (sub = [] → ¬ Shielded f path) :=
  mem_matchItems_of_multiLast (multiLast_of_wildcardFree hpath) node
    (fun hmem => nomatch hpath _ hmem) sub p vs

theorem nodup_valueItem (q : List Level) (s : Finset V) :
    ((valueItem q s).map Prod.fst).Nodup := by
  unfold valueItem
  split_ifs <;> simp

theorem fst_of_mem_branchItems (hpath : ∀ l ∈ path, l.isWildcard = false) {k : Level} {sub p : List Level}
    (h : p ∈ (branchItems node k path sub).map Prod.fst) : ∃ f, p = sub ++ k :: f := by
  obtain ⟨⟨p, vs⟩, hmem, rfl⟩ := mem_map.1 h
  unfold branchItems at hmem
  rcases hc : node.child k with _ | b
  · simp [hc] at hmem
  · rw [hc] at hmem
    obtain ⟨f, ⟨hp, -⟩, -⟩ := (mem_matchItems hpath b _ p vs).1 hmem
    exact ⟨f, by simpa using hp⟩

theorem nodup_matchItems (hpath : ∀ l ∈ path, l.isWildcard = false)
    (node : TopicTree V) (sub : List Level) : ((matchItems node path sub).map Prod.fst).Nodup := by
  induction path generalizing node sub with
  | nil =>
    rw [matchItems_nil, map_append, nodup_append]
    refine ⟨nodup_valueItem _ _, nodup_valueItem _ _, ?_⟩
    rintro p hp q hq rfl
    obtain ⟨⟨p, vs⟩, hmem, rfl⟩ := mem_map.1 hp
    obtain ⟨⟨q, ws⟩, hmem', heq⟩ := mem_map.1 hq
    have h₁ := (mem_valueItem.1 hmem).1
    have h₂ := (mem_multiItem.1 hmem').1
    simp only at h₁ h₂ heq
    rw [heq, h₁] at h₂
    simp at h₂
  | cons l path ih =>
    have hl : l.isWildcard = false := hpath l (by simp)
    have htail : ∀ x ∈ path, x.isWildcard = false := fun x hx => hpath x (by simp [hx])
    have hbranch : ∀ k, ((branchItems node k path sub).map Prod.fst).Nodup := by
      intro k
      unfold branchItems
      cases node.child k with
      | none => simp
      | some b => exact ih htail b _
    -- the lists of the branches are apart because their paths continue with different levels
    have hapart : ∀ {k k' : Level} {f f' : List Level}, k ≠ k' → sub ++ k :: f ≠ sub ++ k' :: f' := by
      intro k k' f f' hk heq
      exact hk (List.cons.inj (append_cancel_left heq)).1
    rw [matchItems_cons, map_append, nodup_append]
    refine ⟨?_, hbranch l, ?_⟩
    · split_ifs
      · simp
      · rw [map_append, nodup_append]
        refine ⟨nodup_valueItem _ _, hbranch _, ?_⟩
        rintro p hp q hq rfl
        obtain ⟨⟨p, vs⟩, hmem, rfl⟩ := mem_map.1 hp
        obtain ⟨f, hf⟩ := fst_of_mem_branchItems htail hq
        exact hapart (by decide) ((mem_multiItem.1 hmem).1.symm.trans hf)
    · rintro p hp q hq rfl
      obtain ⟨f, hf⟩ := fst_of_mem_branchItems htail hq
      split_ifs at hp
      · simp at hp
      · rw [map_append, mem_append] at hp
        rcases hp with hp | hp
        · obtain ⟨⟨p, vs⟩, hmem, rfl⟩ := mem_map.1 hp
          refine hapart (fun h => ?_) ((mem_multiItem.1 hmem).1.symm.trans hf)
          rw [← h] at hl
          cases hl
        · obtain ⟨f', hf'⟩ := fst_of_mem_branchItems htail hp
          refine hapart (fun h => ?_) (hf'.symm.trans hf)
          rw [← h] at hl
          cases hl

namespace TopicTree

theorem isMatch_iff (tree : TopicTree V) {topic : Topic}
    (h : ∀ l ∈ topic.levels, l.isWildcard = false) :
    tree.isMatch topic = true ↔ ∃ f : Topic, tree.get f.levels ≠ ∅ ∧ f.Matches topic := by
  have hans := (MatchedIter.nextAt_spec _ _ (MatchedIter.fits_new tree topic.levels [] le_rfl)).1
  have hnext : (tree.matches topic).next.1 = (matchItems tree topic.levels []).head? :=
    hans.trans (congrArg List.head? (MatchedIter.rest_new ..))
  rw [isMatch, hnext, isSome_head?]
  constructor
  · intro hne
    obtain ⟨⟨p, vs⟩, hmem⟩ := exists_mem_of_ne_nil _ hne
    obtain ⟨f, ⟨-, hne, -⟩, hc, hs⟩ := (mem_matchItems h tree [] p vs).1 hmem
    exact ⟨⟨f⟩, hne, hc, hs rfl⟩
  · rintro ⟨f, hne, hc, hs⟩
    exact ne_nil_of_mem
      ((mem_matchItems h tree [] _ _).2 ⟨_, ⟨rfl, hne, rfl⟩, hc, fun _ => hs⟩)

theorem isMatch_insert_empty (f : Topic) (v : V) {topic : Topic}
    (h : ∀ l ∈ topic.levels, l.isWildcard = false) :
    (insert Trie.empty f v).1.isMatch topic = true ↔ f.Matches topic := by
  rw [isMatch_iff _ h]
  constructor
  · rintro ⟨f', hne, hm⟩
    rw [get_insert] at hne
    split_ifs at hne with heq
    · rwa [show f' = f from by cases f; cases f'; exact congrArg _ heq] at hm
    · simp [Payload.vacant] at hne
  · intro hm
    exact ⟨f, by simp [get_insert], hm⟩

end TopicTree

/-! ## Topics with wildcards -/

theorem Topic.Parsed.multiLast {t : Topic} (h : t.Parsed) : MultiLast t.levels :=
  fun _ hi => h.multiWildcard_last hi

theorem covers_self (h : MultiLast path) : Covers path path := by
  induction path with
  | nil => exact .nil
  | cons l path ih =>
    cases l with
    | singleWildcard => exact .single _ (ih h.tail)
    | multiWildcard =>
      obtain rfl := h.eq_nil
      exact .multi _
    | _ => exact .exact rfl (ih h.tail)

theorem Topic.Parsed.matches_self {t : Topic} (h : t.Parsed) : t.Matches t := by
  refine ⟨covers_self h.multiLast, ?_⟩
  rintro ⟨a, b, ha, hb, hwild, hmeta⟩
  obtain rfl : a = b := Option.some_injective _ (ha.symm.trans hb)
  cases a <;> simp_all [Level.isWildcard, Level.isMetadata]

/-- A stored filter that equals the topic is listed, and it is listed twice if it has a wildcard: the
wildcard branch is followed once as a wildcard and once as the level of the topic. -/
theorem count_matchItems (hpath : MultiLast path) (node : TopicTree V)
    (sub : List Level) (h : node.get path ≠ ∅) :
    1 ≤ ((matchItems node path sub).map Prod.fst).count (sub ++ path) ∧ ((∃ l ∈ path, l.isWildcard = true) →
        2 ≤ ((matchItems node path sub).map Prod.fst).count (sub ++ path)) := by
  induction path generalizing node sub with
  | nil =>
    refine ⟨one_le_count_iff.2 (mem_map.2 ⟨(sub, node.payload.sort), ?_, by simp⟩),
      by simp⟩
    rw [matchItems_nil, mem_append, mem_valueItem]
    exact .inl ⟨rfl, by simpa using h, rfl⟩
  | cons l path ih =>
    rw [Trie.get_cons] at h
    cases hchild : node.child l with
    | none => simp [hchild, Payload.vacant] at h
    | some b =>
      have hbranch : branchItems node l path sub = matchItems b path (sub ++ [l]) := by
        rw [branchItems, hchild, Option.map_some, Option.getD_some]
      have hb := ih hpath.tail b (sub ++ [l]) (by simpa [hchild] using h)
      rw [append_assoc, singleton_append, ← hbranch] at hb
      rw [matchItems_cons, map_append, count_append]
      refine ⟨by omega, ?_⟩
      rintro ⟨k, hk, hwild⟩
      by_cases hl : l.isWildcard = true
      · -- the first level is the wildcard
        have hmeta : l.isMetadata = false := by
          cases l <;> simp_all [Level.isWildcard, Level.isMetadata]
        rw [hmeta, Bool.and_false, if_neg Bool.false_ne_true, map_append, count_append]
        cases l with
        | singleWildcard => omega
        | multiWildcard =>
          obtain rfl := hpath.eq_nil
          have hmulti : 1 ≤ ((multiItem node sub).map Prod.fst).count (sub ++ [.multiWildcard]) := by
            refine one_le_count_iff.2 (mem_map.2
              ⟨(_, _), mem_multiItem.2 ⟨rfl, ?_, rfl⟩, rfl⟩)
            simpa [Trie.get_cons, hchild] using h
          omega
        | _ => simp [Level.isWildcard] at hl
      · have hk' : k ∈ path := (mem_cons.1 hk).resolve_left fun heq => hl (heq ▸ hwild)
        have := hb.2 ⟨k, hk', hwild⟩
        omega

/-! ## Sequences of calls -/

/-- A call that changes the tree. -/
inductive TreeOp (V : Type u)
  | insert (f : Filter) (v : V)
  | remove (f : Filter) (v : V)

def storedStep (S : Finset (Topic × V)) : TreeOp V → Finset (Topic × V)
  | .insert f v => Insert.insert (f.1, v) S
  | .remove f v => S.erase (f.1, v)

def stored (ops : List (TreeOp V)) : Finset (Topic × V) := ops.foldl storedStep ∅

def valuesOf (S : Finset (Topic × V)) (f : Topic) : Finset V :=
  (S.filter fun p => p.1 = f).image Prod.snd

theorem mem_valuesOf {S : Finset (Topic × V)} {f : Topic} {v : V} :
    v ∈ valuesOf S f ↔ (f, v) ∈ S := by
  simp [valuesOf]

namespace TopicTree

def apply (t : TopicTree V) : TreeOp V → TopicTree V
  | .insert f v => (t.insert f.1 v).1
  | .remove f v => (t.remove f.1 v).1

def run (ops : List (TreeOp V)) : TopicTree V := ops.foldl apply Trie.empty

/-- The tree `t` holds the pairs of `S` and nothing else. -/
def Holds (t : TopicTree V) (S : Finset (Topic × V)) : Prop :=
  ∀ ks : List Level, t.get ks = valuesOf S ⟨ks⟩

theorem mk_eq_iff {ks : List Level} {f : Topic} : (⟨ks⟩ : Topic) = f ↔ ks = f.levels :=
  ⟨congrArg Topic.levels, fun h => by rw [h]⟩

theorem holds_apply {t : TopicTree V} {S : Finset (Topic × V)} (h : t.Holds S) (op : TreeOp V) :
    (t.apply op).Holds (storedStep S op) := by
  intro ks
  ext w
  cases op with
  | insert f v =>
    rw [apply, get_insert, h ks, storedStep]
    split_ifs with hks
    · simp [mem_valuesOf, hks]
    · simp [mem_valuesOf, mk_eq_iff, hks]
  | remove f v =>
    rw [apply, get_remove, h ks, storedStep]
    split_ifs with hks
    · simp [mem_valuesOf, hks]
    · simp [mem_valuesOf, mk_eq_iff, hks]

theorem holds_run (ops : List (TreeOp V)) : (run ops).Holds (stored ops) := by
  suffices h : ∀ (ops : List (TreeOp V)) (t : TopicTree V) (S : Finset (Topic × V)), t.Holds S →
      (ops.foldl apply t).Holds (ops.foldl storedStep S) from
    h ops _ _ fun ks => by simp [valuesOf, Payload.vacant]
  intro ops
  induction ops with
  | nil => exact fun t S h => h
  | cons op ops ih => exact fun t S h => ih _ _ (holds_apply h op)

theorem wildcardFree_levels (t : TopicName) : ∀ l ∈ t.1.levels, l.isWildcard = false := by
  simpa [Topic.wildcardFree] using t.2.2

/-- Iterating the matches of a topic returns one item for each stored filter that matches it, with
the values of that filter, and nothing else. -/
theorem matches_run (ops : List (TreeOp V)) (t : TopicName) :
    ∃ items : List (Item V), (∀ l, ((run ops).matches t.1).Yields l ↔ l = items) ∧
      (items.map Prod.fst).Nodup ∧
      ∀ path vs, (path, vs) ∈ items ↔ ∃ f : Topic, path = f.levels ∧
        valuesOf (stored ops) f ≠ ∅ ∧ f.Matches t.1 ∧ vs = (valuesOf (stored ops) f).sort := by
  have hfree := wildcardFree_levels t
  have hyields := MatchedIter.yields_new (run ops) t.1.levels []
  refine ⟨matchItems (run ops) t.1.levels [], fun l => ?_, nodup_matchItems hfree _ _, ?_⟩
  · exact ⟨fun h => h.unique hyields, fun h => h ▸ hyields⟩
  · intro path vs
    rw [mem_matchItems hfree]
    constructor
    · rintro ⟨f, ⟨hp, hne, hvs⟩, hc, hs⟩
      rw [holds_run ops f] at hne hvs
      exact ⟨⟨f⟩, by simpa using hp, hne, ⟨hc, hs rfl⟩, hvs⟩
    · rintro ⟨f, hp, hne, ⟨hc, hs⟩, hvs⟩
      refine ⟨f.levels, ⟨by simpa using hp, ?_, ?_⟩, hc, fun _ => hs⟩
      all_goals rwa [holds_run ops f.levels]

theorem mem_iter_iff {node : TopicTree V} (hnode : ∀ f, node.get f ≠ ∅ → MultiLast f) {t : Topic}
    (ht : MultiLast t.levels) (f : List Level) (v : V) :
    (∃ item ∈ node.iter t, item.1 = f ∧ v ∈ item.2) ↔ v ∈ node.get f ∧ (⟨f⟩ : Topic).Matches t := by
  have hmem := fun p vs => mem_matchItems_of_multiLast ht node (fun _ => hnode) [] p vs
  constructor
  · rintro ⟨⟨p, vs⟩, hitem, rfl, hv⟩
    obtain ⟨f, ⟨rfl, -, rfl⟩, hcovers, hshield⟩ := (hmem p vs).1 hitem
    exact ⟨(Finset.mem_sort _).1 hv, hcovers, hshield rfl⟩
  · rintro ⟨hv, hcovers, hshield⟩
    exact ⟨_, (hmem _ _).2 ⟨f, ⟨rfl, Finset.ne_empty_of_mem hv, rfl⟩, hcovers, fun _ => hshield⟩, rfl,
      (Finset.mem_sort _).2 hv⟩

end TopicTree

end FerroMq
