import FerroMq.Topic.Tree

/-!
# What the matching iterator returns

`matchItems` lists the matches below a node, by recursion on the topic.  `MatchedIter.rest` extends it to
iterators in the middle of their work, and `nextAt_spec` shows that one call returns the head of that list and
leaves its tail.  The list has the stored filters that cover the topic, each once (`nodup_matchItems`).
-/

namespace FerroMq

open Lib List

universe u

variable {V : Type u}

namespace MatchedIter

@[simp] theorem mk_eta (it : MatchedIter V) :
    mk it.node it.path it.subPath it.currItems it.subIters = it := by
  cases it; rfl

/-- The iterators below are nested at most `depth` deep. -/
def Fits : ℕ → MatchedIter V → Prop
  | 0, _ => False
  | depth + 1, it => it.path.length ≤ depth ∧ ∀ s ∈ it.subIters, Fits depth s

theorem fits_new (node : TopicTree V) (path subPath : List Level) {n : ℕ} (h : path.length ≤ n) :
    Fits (n + 1) (new node path subPath) :=
  ⟨h, by simp [new]⟩

theorem nextItem_subPath (next : MatchedIter V → Option (Item V) × MatchedIter V)
    (it : MatchedIter V) : (nextItem next it).2.subPath = it.subPath := by
  unfold nextItem
  split <;> rfl

theorem shields_eq_false (it : MatchedIter V) {subPath : List Level} {level : Level}
    (h : it.shields level subPath = false)
    (hm : (subPath.isEmpty && level.isMetadata) = true) :
    it.node.child .multiWildcard = none ∧ it.node.child .singleWildcard = none := by
  simp only [Bool.and_eq_true] at hm
  have hb : level ≠ .blank := fun hb => by simp [hb, Level.isMetadata] at hm
  simpa [shields, hm.1, hm.2, hb] using h

def subIter (node : TopicTree V) (level : Level) (rest subPath : List Level) :
    List (MatchedIter V) :=
  ((node.child level).map fun b => [new b rest (subPath ++ [level])]).getD []

theorem addSub_eq (it : MatchedIter V) (subPath : List Level) (level : Level) (rest : List Level) :
    it.addSub level rest subPath =
    { it with subIters := it.subIters ++ subIter it.node level rest subPath } := by
  unfold addSub subIter
  cases it.node.child level <;> simp

theorem fits_subIter (subPath : List Level) {node : TopicTree V} {level : Level} {path : List Level} {n : ℕ}
    (hn : path.length ≤ n) : ∀ s ∈ subIter node level path subPath, Fits (n + 1) s := by
  unfold subIter
  intro s hs
  rcases hc : node.child level with _ | b
  · simp [hc] at hs
  · simp only [hc, Option.map_some, Option.getD_some, mem_singleton] at hs
    exact hs ▸ fits_new b path _ hn

end MatchedIter

variable [LinearOrder V]

def valueItem (levels : List Level) (values : Finset V) : List (Item V) :=
  if values = ∅ then [] else [(levels, valueList values)]

def multiItem (node : TopicTree V) (subPath : List Level) : List (Item V) :=
  valueItem (subPath ++ [.multiWildcard]) (node.get [.multiWildcard])

/-- The matches of a topic below a node, in the order of the iterator. -/
def matchItems : TopicTree V → List Level → List Level → List (Item V)
  | node, [], subPath => valueItem subPath node.payload ++ multiItem node subPath
  | node, level :: rest, subPath =>
    let below (l : Level) := ((node.child l).map fun b => matchItems b rest (subPath ++ [l])).getD []
    (if subPath.isEmpty && level.isMetadata then []
      else multiItem node subPath ++ below .singleWildcard) ++ below level

def branchItems (node : TopicTree V) (l : Level) (rest subPath : List Level) : List (Item V) :=
  ((node.child l).map fun b => matchItems b rest (subPath ++ [l])).getD []

theorem matchItems_nil (node : TopicTree V) (subPath : List Level) :
    matchItems node [] subPath = valueItem subPath node.payload ++ multiItem node subPath := by
  rw [matchItems]

theorem matchItems_cons (node : TopicTree V) (level : Level) (rest subPath : List Level) :
    matchItems node (level :: rest) subPath =
      (if subPath.isEmpty && level.isMetadata then []
        else multiItem node subPath ++ branchItems node .singleWildcard rest subPath) ++
        branchItems node level rest subPath := by
  rw [matchItems]
  rfl

/-! ## Iterators stand for lists -/

namespace MatchedIter

/-- The items that an iterator of the given nesting depth still has to return. -/
def rest : ℕ → MatchedIter V → List (Item V)
  | 0, _ => []
  | depth + 1, it => it.currItems.reverse ++ it.subIters.flatMap (rest depth) ++
      (it.subPath.map (matchItems it.node it.path)).getD []

theorem rest_succ (n : ℕ) (it : MatchedIter V) : rest (n + 1) it =
    it.currItems.reverse ++ it.subIters.flatMap (rest n) ++
      (it.subPath.map (matchItems it.node it.path)).getD [] := rfl

theorem rest_new (node : TopicTree V) (path subPath : List Level) (n : ℕ) :
    rest (n + 1) (new node path subPath) = matchItems node path subPath := by
  simp [rest, new]

/-- `r` is the answer of an iterator that stands for `items`: their head, and an iterator over the
same path that stands for their tail. -/
def Answers (n : ℕ) (path : List Level) (items : List (Item V))
    (r : Option (Item V) × MatchedIter V) : Prop :=
  r.1 = items.head? ∧ rest n r.2 = items.tail ∧ Fits n r.2 ∧ r.2.path = path

theorem nextSub_spec {n : ℕ}
    (hn : ∀ it : MatchedIter V, Fits n it → Answers n it.path (rest n it) (nextAt n it))
    {ss : List (MatchedIter V)} (hs : ∀ s ∈ ss, Fits n s) :
    (nextSub (nextAt n) ss).1 = (ss.flatMap (rest n)).head? ∧
      (nextSub (nextAt n) ss).2.flatMap (rest n) = (ss.flatMap (rest n)).tail ∧
      (∀ s ∈ (nextSub (nextAt n) ss).2, Fits n s) ∧
      ((nextSub (nextAt n) ss).1 = none → (nextSub (nextAt n) ss).2 = []) := by
  induction ss with
  | nil => simp [nextSub]
  | cons s ss ih =>
    obtain ⟨hitem, htail, hfits, -⟩ := hn s (hs s (by simp))
    have hss : ∀ s ∈ ss, Fits n s := fun s' h => hs s' (by simp [h])
    rcases hr : nextAt n s with ⟨item, s'⟩
    rw [hr] at hitem htail hfits
    simp only at hitem htail hfits
    rcases item with _ | item
    · have hnil : rest n s = [] := head?_eq_none_iff.1 hitem.symm
      simpa [nextSub, hr, hnil] using ih hss
    · obtain ⟨items, hitems⟩ := head?_eq_some_iff.1 hitem.symm
      rw [hitems, tail_cons] at htail
      refine ⟨?_, ?_, ?_, ?_⟩
      · simp [nextSub, hr, hitems]
      · simp [nextSub, hr, hitems, htail]
      · intro x hx
        simp only [nextSub, hr, mem_cons] at hx
        rcases hx with rfl | hx
        · exact hfits
        · exact hss x hx
      · simp [nextSub, hr]

/-- The items that are ready come first, in the reverse of their order, then those of the
iterators below. -/
theorem nextItem_spec {n : ℕ}
    (hn : ∀ it : MatchedIter V, Fits n it → Answers n it.path (rest n it) (nextAt n it))
    {it : MatchedIter V} (hit : Fits (n + 1) it)
    (hready : it.currItems ≠ [] ∨ it.subIters.flatMap (rest n) ≠ [] ∨ it.subPath = none) :
    Answers (n + 1) it.path (rest (n + 1) it) (nextItem (nextAt n) it) := by
  obtain ⟨hpath, hsubs⟩ := hit
  rcases eq_nil_or_concat it.currItems with hnil | ⟨items, item, hitems⟩
  · obtain ⟨h₁, h₂, h₃, -⟩ := nextSub_spec hn hsubs
    have heq : nextItem (nextAt n) it = ((nextSub (nextAt n) it.subIters).1,
        { it with subIters := (nextSub (nextAt n) it.subIters).2 }) := by
      simp [nextItem, hnil]
    rw [heq]
    simp only [hnil, ne_eq, not_true_eq_false, false_or] at hready
    rcases hl : it.subIters.flatMap (rest n) with _ | ⟨a, as⟩
    · have hnone : it.subPath = none := hready.resolve_left (by simp [hl])
      rw [hl] at h₁ h₂
      simp only [Answers, rest, hnil, hl, hnone, h₁, h₂, Fits, hpath]
      simpa using h₃
    · rw [hl] at h₁ h₂
      simp only [Answers, rest, hnil, hl, h₁, h₂, Fits, hpath]
      simpa using h₃
  · have heq : nextItem (nextAt n) it = (some item, { it with currItems := items }) := by
      simp [nextItem, hitems]
    rw [heq]
    simp only [Answers, rest, hitems, Fits, hpath]
    simpa using hsubs

/-! ### Expanding a node -/

section Prepare

variable (it : MatchedIter V) (subPath : List Level)

theorem addToItems_eq (levels : List Level) (values : Finset V) : it.addToItems levels values =
    { it with currItems := it.currItems ++ valueItem levels values } := by
  unfold addToItems valueItem
  split_ifs <;> simp

theorem addMulti_eq : it.addMulti subPath =
    { it with currItems := it.currItems ++ multiItem it.node subPath } := by
  unfold addMulti multiItem
  rcases hc : it.node.child .multiWildcard with _ | b
  · simp [Trie.get_cons, hc, valueItem, Payload.vacant]
  · simp only [Trie.get_cons, hc, addToItems_eq]
    split_ifs with hb
    · simp [valueItem, hb]
    · simp

theorem flatMap_subIter (node : TopicTree V) (level : Level) (path : List Level) (n : ℕ) :
    (subIter node level path subPath).flatMap (rest (n + 1)) =
      branchItems node level path subPath := by
  unfold subIter branchItems
  cases node.child level <;> simp [rest_new]

theorem rest_prepare {n : ℕ} (hpath : it.path.length ≤ n) (hitems : it.currItems = [])
    (hsubs : it.subIters = []) :
    rest (n + 1) (it.prepare subPath) = matchItems it.node it.path subPath ∧
      Fits (n + 1) (it.prepare subPath) ∧ (it.prepare subPath).path = it.path ∧
      (it.prepare subPath).subPath = none := by
  rcases hp : it.path with _ | ⟨level, path⟩
  · have heq : it.prepare subPath = { it with
        currItems := multiItem it.node subPath ++ valueItem subPath it.node.payload
        subPath := none } := by
      simp [prepare, hp, addMulti_eq, addToItems_eq, hitems]
    have hrev : ∀ (l : List Level) (v : Finset V), (valueItem l v).reverse = valueItem l v :=
      fun l v => by unfold valueItem; split_ifs <;> rfl
    rw [heq]
    refine ⟨?_, ⟨by simp [hp], by simp [hsubs]⟩, hp, rfl⟩
    simp [rest, hsubs, matchItems_nil, multiItem, hrev]
  · obtain ⟨m, rfl⟩ : ∃ m, n = m + 1 := ⟨n - 1, by rw [hp, length_cons] at hpath; omega⟩
    have hlen : path.length ≤ m := by rw [hp, length_cons] at hpath; omega
    have hrev : (multiItem it.node subPath).reverse = multiItem it.node subPath := by
      unfold multiItem valueItem
      split_ifs <;> rfl
    cases hs : it.shields level subPath
    · have heq : it.prepare subPath = { it with
          currItems := multiItem it.node subPath
          subIters := subIter it.node .singleWildcard path subPath ++
            subIter it.node level path subPath
          subPath := none } := by
        simp [prepare, hp, hs, addMulti_eq, addSub_eq, hitems, hsubs]
      rw [heq]
      refine ⟨?_, ⟨by simpa [hp] using hlen, ?_⟩, hp, rfl⟩
      · rw [rest_succ, flatMap_append, flatMap_subIter, flatMap_subIter, matchItems_cons, hrev]
        split_ifs with hm
        · obtain ⟨h₁, h₂⟩ := it.shields_eq_false hs hm
          simp [multiItem, branchItems, Trie.get_cons, h₁, h₂, valueItem, Payload.vacant]
        · simp
      · intro s hmem
        rcases mem_append.1 hmem with h | h
        all_goals exact fits_subIter subPath hlen s h
    · have heq : it.prepare subPath = { it with
          subIters := subIter it.node level path subPath
          subPath := none } := by
        simp [prepare, hp, hs, addSub_eq, hsubs]
      have hm : (subPath.isEmpty && level.isMetadata) = true := by
        simp only [shields, Bool.and_eq_true] at hs
        simp only [hs.1.1.1, hs.1.2, Bool.and_self]
      rw [heq]
      refine ⟨?_, ⟨by simpa [hp] using hlen, fits_subIter subPath hlen⟩, hp, rfl⟩
      rw [rest_succ, flatMap_subIter, matchItems_cons, if_pos hm, hitems]
      simp

end Prepare

/-- One call returns the head of what the iterator stands for and leaves its tail. -/
theorem nextAt_spec (n : ℕ) (it : MatchedIter V) (h : Fits n it) :
    Answers n it.path (rest n it) (nextAt n it) := by
  induction n generalizing it with
  | zero => exact h.elim
  | succ n ih =>
    by_cases hready : it.currItems ≠ [] ∨ it.subIters.flatMap (rest n) ≠ [] ∨ it.subPath = none
    · have hans := nextItem_spec ih h hready
      have hsub := nextItem_subPath (nextAt n) it
      rw [nextAt]
      rcases hr : nextItem (nextAt n) it with ⟨_ | item, it'⟩
      · rw [hr] at hans hsub
        have hnil : rest (n + 1) it = [] := head?_eq_none_iff.1 hans.1.symm
        rw [rest_succ] at hnil
        simp only [append_eq_nil_iff, reverse_eq_nil_iff] at hnil
        have hnone : it.subPath = none := by
          simpa [hnil.1.1, hnil.1.2] using hready
        rw [hnone] at hsub
        simp only at hsub
        simp only [hsub]
        exact hans
      · rw [hr] at hans
        exact hans
    · -- nothing is ready: the first look finds nothing, and the node is expanded
      simp only [not_or, not_not] at hready
      obtain ⟨hitems, hsubs, hpath⟩ := hready
      obtain ⟨sp, hsp⟩ := Option.ne_none_iff_exists'.1 hpath
      obtain ⟨h₁, -, -, h₄⟩ := nextSub_spec ih h.2
      rw [hsubs, head?_nil] at h₁
      have heq : nextItem (nextAt n) it = (none, { it with subIters := [] }) := by
        simp [nextItem, hitems, h₁, h₄ h₁]
      obtain ⟨hrest, hfits, hp, hnone⟩ :=
        rest_prepare { it with subIters := [] } sp h.1 hitems rfl
      have hans := nextItem_spec ih hfits (Or.inr (Or.inr hnone))
      rw [hrest, hp] at hans
      have hit : rest (n + 1) it = matchItems it.node it.path sp := by
        rw [rest_succ, hitems, hsubs, hsp]
        rfl
      rw [nextAt, heq, hit]
      simpa only [hsp] using hans

theorem yields_of_rest {items : List (Item V)} {it : MatchedIter V}
    (hfits : Fits (it.path.length + 1) it) (hrest : rest (it.path.length + 1) it = items) :
    Yields it items := by
  induction items generalizing it with
  | nil =>
    have hans := nextAt_spec _ it hfits
    exact .done (by rw [next, hans.1, hrest]; rfl)
  | cons a as ih =>
    obtain ⟨h₁, h₂, h₃, h₄⟩ := nextAt_spec _ it hfits
    rw [hrest] at h₁ h₂
    have hitem : it.next = (some a, it.next.2) := Prod.ext h₁ rfl
    refine .item hitem (ih ?_ ?_)
    · rw [next, h₄]
      exact h₃
    · rw [next, h₄]
      exact h₂

theorem yields_new (node : TopicTree V) (path subPath : List Level) :
    Yields (new node path subPath) (matchItems node path subPath) :=
  yields_of_rest (fits_new node path subPath le_rfl) (rest_new node path subPath _)

theorem Yields.unique {it : MatchedIter V} {l l' : List (Item V)} (h : Yields it l)
    (h' : Yields it l') : l = l' := by
  induction h generalizing l' with
  | done hn =>
    cases h' with
    | done => rfl
    | item hi => simp [hi] at hn
  | item hi _ ih =>
    cases h' with
    | done hn => simp [hi] at hn
    | item hi' hy =>
      rw [hi] at hi'
      cases hi'
      rw [ih hy]

end MatchedIter

namespace TopicTree

def iter (t : TopicTree V) (topic : Topic) : List (Item V) := matchItems t topic.levels []

theorem yields_iff {t : TopicTree V} {topic : Topic} {l : List (Item V)} :
    (t.matches topic).Yields l ↔ l = t.iter topic := by
  have hyields := MatchedIter.yields_new t topic.levels []
  exact ⟨fun h => h.unique hyields, fun h => h ▸ hyields⟩

end TopicTree

end FerroMq
