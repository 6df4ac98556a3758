import FerroMq.Retain.Tree
import FerroMq.Topic.TreeMatch

/-!
# Looking up retained messages

In the trees that `insert`, `remove` and `retain` build, a lookup returns the stored topics that the filter
matches, each once (`mem_collect`, `nodup_collect`): those for which a subscription tree with that one filter
reports a match.
-/

namespace FerroMq

open Lib List

universe u v

namespace RetainTree

variable {V : Type u} {σ : Type v}

/-! ## Reachable trees -/

def Plain (l : Level) : Prop := l.isWildcard = false

/-- No key twice at a node, no wildcard among the keys and no value at the root. -/
structure Inv (t : RetainTree V) : Prop where
  wf : Trie.Wf Plain t
  root : t.payload = none

/-- One step of a change of the iteration order: the branches of some node are permuted. -/
inductive Reorder : RetainTree V → RetainTree V → Prop
  | here (p : Option V) {bs bs' : List (Level × RetainTree V)} :
      bs.Perm bs' → Reorder (.node p bs) (.node p bs')
  | inside (p : Option V) (l₁ l₂ : List (Level × RetainTree V)) (k : Level) {c c' : RetainTree V} :
      Reorder c c' → Reorder (.node p (l₁ ++ (k, c) :: l₂)) (.node p (l₁ ++ (k, c') :: l₂))

/-- The trees that the calls build when every stored topic is a topic name. -/
inductive Reachable : RetainTree V → Prop
  | empty : Reachable Trie.empty
  | insert {t} (topic : TopicName) (v : V) : Reachable t → Reachable (t.insert topic.1 v)
  | remove {t} (topic : Topic) : Reachable t → Reachable (t.remove topic).1
  | retain {t} {σ : Type} (maxLimit : ℕ) (f : Keep V σ) (s : σ) :
      Reachable t → Reachable (t.retain maxLimit f s).1
  | reorder {t t'} : Reachable t → Reorder t t' → Reachable t'

variable (f : Keep V σ) (m : ℕ)

theorem visit_branches (child : RetainTree V) (s : σ) (removeds : ℕ) :
    (visit f child s removeds).1.branches = child.branches := by
  unfold visit
  split
  · rfl
  · split <;> rfl

variable {p : Level → Prop} {t c : RetainTree V} {path sub : List Level} {level : Level} {topic : Topic} {v : V}

theorem wf_visit {f : Keep V σ} {child : RetainTree V} (h : Trie.Wf p child) (s : σ)
    (removeds : ℕ) : Trie.Wf p (visit f child s removeds).1 := by
  have hw := h.withPayload (visit f child s removeds).1.payload
  rwa [← visit_branches f child s removeds, Trie.node_eta] at hw

theorem retainBranches_cons (k : Level) (c : RetainTree V) (bs : List (Level × RetainTree V))
    (s : σ) (r : ℕ) : ∃ c₂ s₂ r₂ bs' s' r',
      visit f (retainNode f m c s r).1 (retainNode f m c s r).2.1 (retainNode f m c s r).2.2 = (c₂, s₂, r₂) ∧
      retainBranches f m bs s₂ r₂ = (bs', s', r') ∧
      retainBranches f m ((k, c) :: bs) s r = (if c₂.isBare then bs' else (k, c₂) :: bs', s', r') := by
  refine ⟨_, _, _, _, _, _, rfl, rfl, ?_⟩
  rw [retainBranches]
  rfl

theorem retainBranches_spec (bs : List (Level × RetainTree V))
    (hbs : ∀ b ∈ bs, ∀ s r, Trie.Wf p (retainNode f m b.2 s r).1) (s : σ) (r : ℕ) :
    ((retainBranches f m bs s r).1.map Prod.fst).Sublist (bs.map Prod.fst) ∧
      ∀ b ∈ (retainBranches f m bs s r).1, Trie.Wf p b.2 := by
  induction bs generalizing s r with
  | nil => simp [retainBranches]
  | cons b bs ih =>
    obtain ⟨k, c⟩ := b
    obtain ⟨c₂, s₂, r₂, bs', s', r', hvisit, hloop, hout⟩ := retainBranches_cons f m k c bs s r
    have hc := wf_visit (f := f) (hbs (k, c) (by simp) s r) (retainNode f m c s r).2.1 (retainNode f m c s r).2.2
    obtain ⟨hkeys, hwf⟩ := ih (fun b hb => hbs b (by simp [hb])) s₂ r₂
    rw [hvisit] at hc
    rw [hloop] at hkeys hwf
    rw [hout]
    dsimp only
    split_ifs
    · exact ⟨hkeys.trans (sublist_cons_self _ _), hwf⟩
    · refine ⟨hkeys.cons_cons k, fun b hb => ?_⟩
      rcases mem_cons.1 hb with rfl | hb
      · exact hc
      · exact hwf b hb

theorem retainNode_payload (t : RetainTree V) (s : σ) (r : ℕ) :
    (retainNode f m t s r).1.payload = t.payload := by
  obtain ⟨p, bs⟩ := t
  rw [retainNode]
  split_ifs <;> rfl

theorem wf_retainNode (h : Trie.Wf p t)
    (s : σ) (r : ℕ) : Trie.Wf p (retainNode f m t s r).1 := by
  induction t using Trie.branchInduction generalizing s r with
  | node t ih =>
    obtain ⟨v, bs⟩ := t
    obtain ⟨hkeys, hwf⟩ :=
      retainBranches_spec f m bs (fun b hb s r => ih b hb (h.branch hb) s r) s r
    rw [retainNode]
    split_ifs
    · exact h
    · refine .intro (h.nodup.sublist hkeys) (fun b hb => ?_) hwf
      obtain ⟨b', hb', heq⟩ := mem_map.1 (hkeys.subset (mem_map_of_mem hb))
      exact heq ▸ h.key hb'

theorem Reorder.payload {t' : RetainTree V} (h : Reorder t t') : t'.payload = t.payload := by
  cases h <;> rfl

theorem Reorder.wf {q : Level → Prop} {t' : RetainTree V} (h : Reorder t t')
    (ht : Trie.Wf q t) : Trie.Wf q t' := by
  induction h with
  | here p hp =>
    exact .intro ((hp.map _).nodup_iff.1 ht.nodup) (fun b hb => ht.key (hp.mem_iff.2 hb))
      fun b hb => ht.branch (hp.mem_iff.2 hb)
  | @inside p l₁ l₂ k c c' _ ih =>
    have hk : q k := ht.key (b := (k, c)) (by simp)
    have hc := ih (ht.branch (b := (k, c)) (by simp))
    refine .intro (by simpa using ht.nodup) (fun b hb => ?_) fun b hb => ?_
    · rcases mem_append.1 hb with hb | hb
      · exact ht.key (by simp [hb])
      · rcases mem_cons.1 hb with rfl | hb
        · exact hk
        · exact ht.key (by simp [hb])
    · rcases mem_append.1 hb with hb | hb
      · exact ht.branch (by simp [hb])
      · rcases mem_cons.1 hb with rfl | hb
        · exact hc
        · exact ht.branch (by simp [hb])

theorem get_insert (t : RetainTree V) (topic : Topic) (value : V) (ks : List Level) :
    (t.insert topic value).get ks = if ks = topic.levels then some value else t.get ks :=
  Trie.get_upsert _ _ _ _

theorem get_remove (t : RetainTree V) (topic : Topic) (ks : List Level) :
    (t.remove topic).1.get ks = if ks = topic.levels then none else t.get ks :=
  Trie.get_prune rfl _ _ _

theorem Reachable.inv (h : Reachable t) : Inv t := by
  induction h with
  | empty => exact ⟨Trie.wf_empty _, rfl⟩
  | insert topic v _ ih =>
    refine ⟨ih.wf.upsert _ (TopicTree.wildcardFree_levels topic), ?_⟩
    rw [← Trie.get_nil, get_insert, if_neg topic.2.1.ne_nil.symm, Trie.get_nil, ih.root]
  | remove topic _ ih =>
    refine ⟨ih.wf.prune _ _ _, ?_⟩
    rw [← Trie.get_nil, get_remove, Trie.get_nil, ih.root, ite_self]
  | retain m f s _ ih =>
    exact ⟨wf_retainNode f m ih.wf s 0, (retainNode_payload f m _ s 0).trans ih.root⟩
  | reorder _ hr ih => exact ⟨hr.wf ih.wf, hr.payload.trans ih.root⟩

/-! ## What a lookup collects -/

def HashLast (path : List Level) : Prop :=
  ∀ l₁ l₂, path = l₁ ++ .multiWildcard :: l₂ → l₂ = []

theorem HashLast.tail {l : Level} (h : HashLast (l :: path)) : HashLast path :=
  fun l₁ l₂ he => h (l :: l₁) l₂ (by rw [he, cons_append])

theorem HashLast.eq_of_head (h : HashLast path)
    (hh : path.head? = some .multiWildcard) : path = [.multiWildcard] := by
  obtain ⟨rest, rfl⟩ := head?_eq_some_iff.1 hh
  rw [h [] rest rfl]

theorem hashLast_of_parsed {t : Topic} (h : t.Parsed) : HashLast t.levels := by
  intro l₁ l₂ he
  have hlast := h.multiWildcard_last (i := l₁.length) (by simp [he])
  rw [he] at hlast
  simpa using hlast

/-- What a lookup collects from a child: the child itself if it is the parent of a trailing `#`,
then what lies below it. -/
def below (c : RetainTree V) (rest subPath : List Level) : List (Topic × V) :=
  addParent rest subPath c.payload ++ collect c rest subPath

def spread (t : RetainTree V) (rest subPath : List Level) : List (Topic × V) :=
  t.branches.flatMap fun b =>
    if skips subPath b.1 then [] else below b.2 rest (subPath ++ [b.1])

theorem collect_nil (t : RetainTree V) (subPath : List Level) :
    collect t [] subPath = addToOut subPath t.payload := by
  rw [collect]
  simp

theorem collect_of_branches_eq_nil (h : t.branches = []) (level : Level)
    (rest subPath : List Level) : collect t (level :: rest) subPath = [] := by
  rw [collect]
  simp [h]

theorem collect_of_child (h : t.child level = some c) (rest subPath : List Level) :
    collect t (level :: rest) subPath = below c rest (subPath ++ [level]) := by
  have hne : t.branches ≠ [] := ne_nil_of_mem (Trie.mem_branches_of_child h)
  rw [collect, if_neg (by simp [hne])]
  split
  · rename_i r hr
    rw [h] at hr
    cases hr
    rfl
  · rename_i hr
    rw [h] at hr
    cases hr

theorem collect_of_child_none (h : t.child level = none) (rest subPath : List Level) :
    collect t (level :: rest) subPath = if level = .singleWildcard then spread t rest subPath
      else if level = .multiWildcard then t.branches.flatMap fun b => if skips subPath b.1 then []
          else if b.2.branches.isEmpty then addToOut (subPath ++ [b.1]) b.2.payload
          else addToOut (subPath ++ [b.1]) b.2.payload ++ collect b.2 (level :: rest) (subPath ++ [b.1])
      else [] := by
  by_cases hne : t.branches = []
  · rw [collect_of_branches_eq_nil hne]
    simp [spread, hne]
  rw [collect, if_neg (by simp [hne])]
  split
  · rename_i r hr
    rw [h] at hr
    cases hr
  · simp only [spread, below, flatMap_subtype, unattach_attach]

theorem collect_singleWildcard (h : t.child .singleWildcard = none) (rest subPath : List Level) :
    collect t (.singleWildcard :: rest) subPath = spread t rest subPath := by
  rw [collect_of_child_none h, if_pos rfl]

theorem collect_multiWildcard (h : t.child .multiWildcard = none) (subPath : List Level) :
    collect t [.multiWildcard] subPath = spread t [.multiWildcard] subPath := by
  rw [collect_of_child_none h, if_neg (by decide), if_pos rfl, spread]
  refine congrArg (t.branches.flatMap ·) (funext fun b => ?_)
  -- a child without branches adds nothing but itself
  by_cases hb : b.2.branches = []
  · simp [below, addParent, hb, collect_of_branches_eq_nil hb]
  · simp [below, addParent, hb]

/-- A filter without wildcards finds what is stored at it, whatever else the tree holds. -/
theorem collect_plain (h : ∀ l ∈ path, l.isWildcard = false) (t : RetainTree V)
    (sub : List Level) : collect t path sub = addToOut (sub ++ path) (t.get path) := by
  induction path generalizing t sub with
  | nil => rw [collect_nil, append_nil, Trie.get_nil]
  | cons level rest ih =>
    have hlevel := h level mem_cons_self
    have hrest : ∀ l ∈ rest, l.isWildcard = false := fun l hl => h l (mem_cons_of_mem _ hl)
    rcases hc : t.child level with _ | c
    · rw [collect_of_child_none hc, Trie.get_cons, hc]
      rw [if_neg (by rintro rfl; exact nomatch hlevel), if_neg (by rintro rfl; exact nomatch hlevel)]
      rfl
    · have hparent : rest.head? ≠ some .multiWildcard := fun hh =>
        nomatch hrest _ (mem_of_mem_head? hh)
      rw [collect_of_child hc, below, addParent, if_neg hparent, nil_append, ih hrest,
        Trie.get_cons, hc, append_assoc]
      rfl

/-- The item of a topic stored below `t`, reached along `sub`. -/
def IsStored (t : RetainTree V) (sub ks : List Level) (topic : Topic) (v : V) : Prop :=
  topic = ⟨sub ++ ks⟩ ∧ t.get ks = some v

theorem isStored_cons_iff {k : Level} (h : t.child k = some c) {ks : List Level} :
    IsStored t sub (k :: ks) topic v ↔ IsStored c (sub ++ [k]) ks topic v := by
  simp [IsStored, Trie.get_cons, h]

theorem not_isStored_of_child_none {k : Level} (h : t.child k = none)
    {ks : List Level} : ¬ IsStored t sub (k :: ks) topic v := by
  simp [IsStored, Trie.get_cons, h, Payload.vacant]

theorem mem_addToOut {value : Option V} : (topic, v) ∈ addToOut sub value ↔ topic = ⟨sub⟩ ∧ value = some v := by
  cases value <;> simp [addToOut, eq_comm]

/-- What a lookup of `path` finds from the node `t` on.  The node itself is not an answer to a
final `#`: its parent has listed it. -/
def Finds (t : RetainTree V) (path sub : List Level) (topic : Topic) (v : V) : Prop :=
  ∃ ks, IsStored t sub ks topic v ∧ Covers path ks ∧ (path = [.multiWildcard] → ks ≠ []) ∧
    (sub = [] → ¬ Shielded path ks)

theorem mem_below {rest : List Level} (hrest : HashLast rest) (hsub : sub ≠ [])
    (ih : (topic, v) ∈ collect c rest sub ↔ Finds c rest sub topic v) :
    (topic, v) ∈ below c rest sub ↔ ∃ ks, IsStored c sub ks topic v ∧ Covers rest ks := by
  rw [below, mem_append, ih, addParent]
  constructor
  · rintro (h | ⟨ks, hks, hc, -⟩)
    · split_ifs at h with hh
      · rw [mem_addToOut] at h
        refine ⟨[], ⟨by simpa using h.1, by simpa using h.2⟩, ?_⟩
        rw [hrest.eq_of_head hh]
        exact .multi []
      · simp at h
    · exact ⟨ks, hks, hc⟩
  · rintro ⟨ks, hks, hc⟩
    by_cases hp : rest = [.multiWildcard] ∧ ks = []
    · obtain ⟨rfl, rfl⟩ := hp
      left
      rw [if_pos (by rfl), mem_addToOut]
      exact ⟨by simpa using hks.1, by simpa using hks.2⟩
    · exact Or.inr ⟨ks, hks, hc, fun h h' => hp ⟨h, h'⟩, fun h => absurd h hsub⟩

theorem skips_eq (sub : List Level) (k : Level) :
    skips sub k = (sub.isEmpty && k.isMetadata) := by
  cases k <;> simp [skips, Level.isMetadata]

theorem mem_spread (ht : Trie.Wf Plain t) {rest : List Level}
    (ih : ∀ b ∈ t.branches, (topic, v) ∈ below b.2 rest (sub ++ [b.1]) ↔
      ∃ ks, IsStored b.2 (sub ++ [b.1]) ks topic v ∧ Covers rest ks) :
    (topic, v) ∈ spread t rest sub ↔ ∃ k ks, IsStored t sub (k :: ks) topic v ∧ Covers rest ks ∧
      (sub = [] → k.isMetadata = false) := by
  simp only [spread, mem_flatMap, skips_eq]
  constructor
  · rintro ⟨⟨k, c⟩, hb, h⟩
    split_ifs at h with hs
    · simp at h
    · obtain ⟨ks, hks, hc⟩ := (ih _ hb).1 h
      refine ⟨k, ks, (isStored_cons_iff (ht.child_eq_some hb)).2 hks, hc, ?_⟩
      rintro rfl
      simpa using hs
  · rintro ⟨k, ks, hks, hc, hm⟩
    rcases hchild : t.child k with _ | c
    · exact absurd hks (not_isStored_of_child_none hchild)
    · have hb := Trie.mem_branches_of_child hchild
      refine ⟨(k, c), hb, ?_⟩
      rw [if_neg, ih _ hb]
      · exact ⟨ks, (isStored_cons_iff hchild).1 hks, hc⟩
      · simp only [Bool.and_eq_true, List.isEmpty_iff, not_and, Bool.not_eq_true]
        exact hm

theorem finds_plain_cons_iff {rest : List Level} (hl : level.isWildcard = false) :
    Finds t (level :: rest) sub topic v ↔ ∃ ks, IsStored t sub (level :: ks) topic v ∧ Covers rest ks := by
  constructor
  · rintro ⟨ks, hks, hc, -⟩
    obtain ⟨ks', rfl, hc'⟩ := (covers_plain_cons_iff hl).1 hc
    exact ⟨ks', hks, hc'⟩
  · rintro ⟨ks, hks, hc⟩
    refine ⟨_, hks, .exact hl hc, fun _ => cons_ne_nil _ _, fun _ => ?_⟩
    simp [shielded_cons_iff, hl]

theorem finds_singleWildcard_iff {rest : List Level} :
    Finds t (.singleWildcard :: rest) sub topic v ↔ ∃ k ks, IsStored t sub (k :: ks) topic v ∧
      Covers rest ks ∧ (sub = [] → k.isMetadata = false) := by
  constructor
  · rintro ⟨ks, hks, hc, -, hs⟩
    obtain ⟨k, ks', rfl, hc'⟩ := covers_single_cons_iff.1 hc
    exact ⟨k, ks', hks, hc', fun h => by simpa [shielded_cons_iff, Level.isWildcard] using hs h⟩
  · rintro ⟨k, ks, hks, hc, hm⟩
    refine ⟨_, hks, .single k hc, fun _ => cons_ne_nil _ _, fun h => ?_⟩
    simp [shielded_cons_iff, hm h]

theorem finds_multiWildcard_iff :
    Finds t [.multiWildcard] sub topic v ↔ ∃ k ks, IsStored t sub (k :: ks) topic v ∧
      Covers [.multiWildcard] ks ∧ (sub = [] → k.isMetadata = false) := by
  constructor
  · rintro ⟨ks, hks, -, hne, hs⟩
    obtain ⟨k, ks', rfl⟩ := exists_cons_of_ne_nil (hne rfl)
    exact ⟨k, ks', hks, .multi _, fun h => by
      simpa [shielded_cons_iff, Level.isWildcard] using hs h⟩
  · rintro ⟨k, ks, hks, -, hm⟩
    refine ⟨_, hks, .multi _, fun _ => cons_ne_nil _ _, fun h => ?_⟩
    simp [shielded_cons_iff, hm h]

/-- A lookup collects the stored topics that the filter covers; at the root (no path collected
yet) the `$` rule holds. -/
theorem mem_collect (ht : Trie.Wf Plain t) (hpath : HashLast path) (sub : List Level) (topic : Topic) (v : V) :
    (topic, v) ∈ collect t path sub ↔ Finds t path sub topic v := by
  induction t using Trie.branchInduction generalizing path sub with
  | node t ih =>
    have hbelow : ∀ {rest}, HashLast rest → ∀ b ∈ t.branches,
        (topic, v) ∈ below b.2 rest (sub ++ [b.1]) ↔
          ∃ ks, IsStored b.2 (sub ++ [b.1]) ks topic v ∧ Covers rest ks := fun hrest b hb =>
      mem_below hrest (by simp) (ih b hb (ht.branch hb) hrest _)
    cases path with
    | nil =>
      rw [collect_nil, mem_addToOut]
      constructor
      · rintro ⟨rfl, hv⟩
        exact ⟨[], ⟨by simp, by simpa using hv⟩, .nil, by simp, fun _ => not_shielded_nil_right _⟩
      · rintro ⟨ks, hks, hc, -⟩
        cases hc
        exact ⟨by simpa using hks.1, by simpa using hks.2⟩
    | cons level rest =>
      have hrest := hpath.tail
      by_cases hw : level.isWildcard = false
      · -- a plain level goes into its own branch
        rw [finds_plain_cons_iff hw]
        rcases hchild : t.child level with _ | c
        · rw [collect_of_child_none hchild, if_neg, if_neg]
          · simp [not_isStored_of_child_none hchild]
          · rintro rfl
            cases hw
          · rintro rfl
            cases hw
        · simp only [collect_of_child hchild, isStored_cons_iff hchild]
          exact hbelow hrest (level, c) (Trie.mem_branches_of_child hchild)
      · -- a wildcard has no branch of its own and goes into all of them
        have hnone : t.child level = none := ht.child_eq_none hw
        cases level with
        | singleWildcard =>
          rw [collect_singleWildcard hnone, finds_singleWildcard_iff]
          exact mem_spread ht (hbelow hrest)
        | multiWildcard =>
          obtain rfl := hpath [] rest rfl
          rw [collect_multiWildcard hnone, finds_multiWildcard_iff]
          exact mem_spread ht (hbelow hpath)
        | normal | metadata | blank => exact absurd rfl hw

/-! ## No topic twice -/

theorem nodup_addToOut (sub : List Level) (value : Option V) :
    ((addToOut sub value).map Prod.fst).Nodup := by
  cases value <;> simp [addToOut]

theorem fst_of_mem_collect (ht : Trie.Wf Plain t)
    (hpath : HashLast path) (h : topic ∈ (collect t path sub).map Prod.fst) :
    ∃ ks, topic = ⟨sub ++ ks⟩ ∧ (path = [.multiWildcard] → ks ≠ []) := by
  obtain ⟨⟨topic, v⟩, hmem, rfl⟩ := mem_map.1 h
  obtain ⟨ks, hks, -, hne, -⟩ := (mem_collect ht hpath sub topic v).1 hmem
  exact ⟨ks, hks.1, hne⟩

theorem fst_of_mem_below (hc : Trie.Wf Plain c) {rest : List Level}
    (hrest : HashLast rest) (h : topic ∈ (below c rest sub).map Prod.fst) : ∃ ks, topic = ⟨sub ++ ks⟩ := by
  rw [below, map_append, mem_append] at h
  rcases h with h | h
  · obtain ⟨⟨topic, v⟩, hmem, rfl⟩ := mem_map.1 h
    unfold addParent at hmem
    split_ifs at hmem
    · exact ⟨[], by simpa using (mem_addToOut.1 hmem).1⟩
    · simp at hmem
  · obtain ⟨ks, hks, -⟩ := fst_of_mem_collect hc hrest h
    exact ⟨ks, hks⟩

theorem nodup_below (hc : Trie.Wf Plain c) {rest : List Level}
    (hrest : HashLast rest) (ih : ((collect c rest sub).map Prod.fst).Nodup) :
    ((below c rest sub).map Prod.fst).Nodup := by
  rw [below, map_append, nodup_append]
  unfold addParent
  split_ifs with hh
  · refine ⟨nodup_addToOut _ _, ih, ?_⟩
    rintro topic htopic _ hmem rfl
    obtain ⟨⟨topic, v⟩, hout, rfl⟩ := mem_map.1 htopic
    obtain ⟨ks, hks, hne⟩ := fst_of_mem_collect hc hrest hmem
    have heq := (mem_addToOut.1 hout).1.symm.trans hks
    simp only [Topic.mk.injEq, self_eq_append_right] at heq
    exact hne (hrest.eq_of_head hh) heq
  · simpa using ih

theorem nodup_spread (ht : Trie.Wf Plain t) {rest : List Level} (hrest : HashLast rest)
    (ih : ∀ b ∈ t.branches, ((below b.2 rest (sub ++ [b.1])).map Prod.fst).Nodup) :
    ((spread t rest sub).map Prod.fst).Nodup := by
  rw [spread, map_flatMap, nodup_flatMap]
  constructor
  · intro b hb
    split_ifs
    · simp
    · exact ih b hb
  · have hfst : ∀ b ∈ t.branches, ∀ topic : Topic,
        topic ∈ (if skips sub b.1 then [] else below b.2 rest (sub ++ [b.1])).map Prod.fst →
          ∃ ks, topic = ⟨sub ++ b.1 :: ks⟩ := by
      intro b hb topic h
      split_ifs at h
      · simp at h
      · obtain ⟨ks, hks⟩ := fst_of_mem_below (ht.branch hb) hrest h
        exact ⟨ks, by simpa using hks⟩
    refine (pairwise_map.1 ht.nodup).imp_of_mem fun {b b'} hb hb' hne => ?_
    intro topic h h'
    obtain ⟨ks, hks⟩ := hfst b hb topic h
    obtain ⟨ks', hks'⟩ := hfst b' hb' topic h'
    rw [hks, Topic.mk.injEq] at hks'
    exact hne (List.cons.inj (append_cancel_left hks')).1

theorem nodup_collect (ht : Trie.Wf Plain t)
    (hpath : HashLast path) (sub : List Level) : ((collect t path sub).map Prod.fst).Nodup := by
  induction t using Trie.branchInduction generalizing path sub with
  | node t ih =>
    have hbelow : ∀ {rest}, HashLast rest → ∀ b ∈ t.branches,
        ((below b.2 rest (sub ++ [b.1])).map Prod.fst).Nodup := fun hrest b hb =>
      nodup_below (ht.branch hb) hrest (ih b hb (ht.branch hb) hrest _)
    cases path with
    | nil =>
      rw [collect_nil]
      exact nodup_addToOut _ _
    | cons level rest =>
      have hrest := hpath.tail
      rcases hchild : t.child level with _ | c
      · cases level with
        | singleWildcard =>
          rw [collect_singleWildcard hchild]
          exact nodup_spread ht hrest (hbelow hrest)
        | multiWildcard =>
          obtain rfl := hpath [] rest rfl
          rw [collect_multiWildcard hchild]
          exact nodup_spread ht hpath (hbelow hpath)
        | normal | metadata | blank => simp [collect_of_child_none hchild]
      · rw [collect_of_child hchild]
        exact hbelow hrest (level, c) (Trie.mem_branches_of_child hchild)

/-! ## Agreement with the subscription tree -/

/-- A lookup returns the stored topics that a subscription tree with this one filter matches, each
once and with its current value, and nothing else. -/
theorem matches_iff_isMatch {t : RetainTree V} (h : Reachable t) (f : Filter) :
    ((t.matches f.1).map Prod.fst).Nodup ∧
      ∀ topic v, (topic, v) ∈ t.matches f.1 ↔ t.get topic.levels = some v ∧
        (TopicTree.insert Trie.empty f.1 ()).1.isMatch topic = true := by
  have hinv := h.inv
  have hpath := hashLast_of_parsed f.2
  refine ⟨nodup_collect hinv.wf hpath [], fun topic v => ?_⟩
  rw [RetainTree.matches, mem_collect hinv.wf hpath]
  constructor
  · rintro ⟨ks, ⟨rfl, hget⟩, hc, -, hs⟩
    have hplain : ∀ l ∈ ks, Plain l := hinv.wf.key_of_get (by simp [hget, Payload.vacant])
    rw [nil_append, TopicTree.isMatch_insert_empty _ _ hplain]
    exact ⟨hget, hc, hs rfl⟩
  · rintro ⟨hget, hm⟩
    have hplain : ∀ l ∈ topic.levels, Plain l :=
      hinv.wf.key_of_get (by simp [hget, Payload.vacant])
    rw [TopicTree.isMatch_insert_empty _ _ hplain] at hm
    refine ⟨topic.levels, ⟨rfl, hget⟩, hm.1, fun _ hnil => ?_, fun _ => hm.2⟩
    -- nothing is stored at the root
    rw [hnil, Trie.get_nil, hinv.root] at hget
    cases hget

/-- A tree with two topics under one parent, looked up with a trailing `#`. -/
theorem matches_iff_isMatch_two_topics :
    let a : TopicName := ⟨⟨[.normal "a"]⟩, ⟨"a", by decide⟩, by decide⟩
    let ab : TopicName := ⟨⟨[.normal "a", .normal "b"]⟩, ⟨"a/b", by decide⟩, by decide⟩
    let f : Filter := ⟨⟨[.normal "a", .multiWildcard]⟩, ⟨"a/#", by decide⟩⟩
    let t : RetainTree ℕ := (insert Trie.empty a.1 1).insert ab.1 2
    Reachable t ∧ ∀ topic v, (topic, v) ∈ t.matches f.1 ↔ t.get topic.levels = some v ∧
      (TopicTree.insert Trie.empty f.1 ()).1.isMatch topic = true := by
  intro a ab f t
  have h : Reachable t := .insert ab 2 (.insert a 1 .empty)
  exact ⟨h, (matches_iff_isMatch h f).2⟩

end RetainTree

end FerroMq
