import FerroMq.Lib.TriePaths
import FerroMq.Retain.TreeMatch

/-!
# The contents of a retained tree

The number of values in a tree (`valuesSize`), the topics they sit at, and that no branch is empty.  `Stocked`
holds of every tree that is built by `insert` with topics the parser accepts, `remove`, `retain` and changes of
the iteration order.
-/

namespace FerroMq

open Lib List

universe u v

namespace RetainTree

variable {V : Type u} {σ : Type v}

mutual

def valuesSize : RetainTree V → ℕ
  | .node value branches => if value.isSome then branchesSize branches + 1 else branchesSize branches

def branchesSize : List (Level × RetainTree V) → ℕ
  | [] => 0
  | (_, n) :: branches => valuesSize n + branchesSize branches

end

theorem branchesSize_eq (bs : List (Level × RetainTree V)) :
    branchesSize bs = (bs.map fun b => b.2.valuesSize).sum := by
  induction bs with
  | nil => rfl
  | cons b bs ih => rw [branchesSize, ih, map_cons, sum_cons]

theorem valuesSize_eq (t : RetainTree V) : t.valuesSize = t.paths.length := by
  induction t using Trie.branchInduction with
  | node t ih =>
    obtain ⟨value, bs⟩ := t
    have hbelow : branchesSize bs = (Trie.pathsBelow bs).length := by
      rw [branchesSize_eq, Trie.length_pathsBelow]
      exact congrArg List.sum (map_congr_left ih)
    rw [valuesSize, hbelow, Trie.paths, length_append]
    cases value <;> simp [Payload.isVacant]

/-! ## Trees that are kept by the storage -/

/-- No key twice at a node, no empty branch, and every value sits at a topic the parser accepts. -/
structure Stocked (t : RetainTree V) : Prop where
  wf : Trie.Wf (fun _ => True) t
  pruned : t.Pruned
  parsed : ∀ ks, t.get ks ≠ none → Topic.Parsed ⟨ks⟩

namespace Stocked

variable {t t' : RetainTree V}

theorem empty : Stocked (Trie.empty : RetainTree V) where
  wf := Trie.wf_empty _
  pruned := .empty
  parsed ks h := absurd (Trie.get_empty ks) h

theorem get_nil (h : Stocked t) : t.get [] = none := by
  by_contra hne
  exact (h.parsed [] hne).ne_nil rfl

theorem valuesSize_congr (h : Stocked t) (h' : Stocked t') (heq : ∀ ks, t.get ks = none ↔ t'.get ks = none) :
    t.valuesSize = t'.valuesSize := by
  rw [valuesSize_eq, valuesSize_eq, Trie.length_paths_congr h.wf h'.wf heq]

theorem insert (h : Stocked t) {topic : Topic} (htopic : topic.Parsed) (v : V) :
    Stocked (t.insert topic v) where
  wf := h.wf.upsert _ fun _ _ => trivial
  pruned := h.pruned.upsert (Option.some_ne_none v)
  parsed ks hne := by
    rw [get_insert] at hne
    split_ifs at hne with heq
    · exact heq ▸ htopic
    · exact h.parsed ks hne

theorem valuesSize_insert (h : Stocked t) (topic : Topic) (v : V) : (t.insert topic v).valuesSize =
    t.valuesSize + if (t.get topic.levels).isNone then 1 else 0 := by
  rw [valuesSize_eq, valuesSize_eq]
  exact Trie.length_paths_upsert h.wf (fun _ _ => trivial) (Option.some_ne_none v)

theorem remove (h : Stocked t) (topic : Topic) : Stocked (t.remove topic).1 where
  wf := h.wf.prune _ _ _
  pruned := h.pruned.prune _ _ _
  parsed ks hne := by
    rw [get_remove] at hne
    split_ifs at hne
    · exact absurd rfl hne
    · exact h.parsed ks hne

theorem valuesSize_remove (h : Stocked t) (topic : Topic) :
    (t.remove topic).1.valuesSize + (if (t.get topic.levels).isNone then 0 else 1) = t.valuesSize := by
  rw [valuesSize_eq, valuesSize_eq]
  exact Trie.length_paths_prune h.wf rfl rfl

end Stocked

theorem remove_snd (t : RetainTree V) (topic : Topic) : (t.remove topic).2 = t.get topic.levels :=
  Trie.prune_snd rfl _ _

/-! ## Changes of the iteration order -/

theorem Reorder.child {p : Level → Prop} {t t' : RetainTree V} (h : Reorder t t') (ht : Trie.Wf p t)
    (k : Level) : t'.child k = t.child k ∨
      ∃ c c', t.child k = some c ∧ t'.child k = some c' ∧ Reorder c c' := by
  have ht' := h.wf ht
  cases h with
  | @here v bs bs' hp =>
    left
    ext c
    constructor
    · exact fun hc => ht.child_eq_some (hp.mem_iff.2 (Trie.mem_branches_of_child hc))
    · exact fun hc => ht'.child_eq_some (hp.mem_iff.1 (Trie.mem_branches_of_child hc))
  | @inside v l₁ l₂ k' c c' hr =>
    by_cases hk : k = k'
    · subst hk
      exact .inr ⟨c, c', ht.child_eq_some (by simp), ht'.child_eq_some (by simp), hr⟩
    · left
      ext d
      constructor
      · intro hd
        have hmem := Trie.mem_branches_of_child hd
        refine ht.child_eq_some ?_
        simpa [hk] using hmem
      · intro hd
        have hmem := Trie.mem_branches_of_child hd
        refine ht'.child_eq_some ?_
        simpa [hk] using hmem

theorem Reorder.get {p : Level → Prop} {t t' : RetainTree V} (h : Reorder t t') (ht : Trie.Wf p t)
    (ks : List Level) : t'.get ks = t.get ks := by
  induction ks generalizing t t' with
  | nil => rw [Trie.get_nil, Trie.get_nil, h.payload]
  | cons k ks ih =>
    rw [Trie.get_cons, Trie.get_cons]
    rcases h.child ht k with heq | ⟨c, c', hc, hc', hr⟩
    · rw [heq]
    · rw [hc, hc', Option.map_some, Option.map_some, ih hr (ht.of_child hc)]

theorem Reorder.isBare {t t' : RetainTree V} (h : Reorder t t') : t'.isBare = t.isBare := by
  rw [Trie.isBare, Trie.isBare, h.payload]
  cases h with
  | here p hp => rw [Trie.branches_node, Trie.branches_node, hp.isEmpty_eq]
  | inside p l₁ => cases l₁ <;> rfl

theorem Reorder.pruned {t t' : RetainTree V} (h : Reorder t t') (ht : t.Pruned) : t'.Pruned := by
  induction h with
  | here p hp =>
    exact .intro (fun b hb => ht.notBare (hp.mem_iff.2 hb)) fun b hb => ht.branch (hp.mem_iff.2 hb)
  | @inside p l₁ l₂ k c c' hr ih =>
    have hold : ∀ b ∈ l₁ ++ (k, c') :: l₂, b = (k, c') ∨ b ∈ l₁ ++ (k, c) :: l₂ := by
      intro b hb
      simp only [mem_append, mem_cons] at hb ⊢
      tauto
    have hmem : (k, c) ∈ l₁ ++ (k, c) :: l₂ := by simp
    refine .intro (fun b hb => ?_) fun b hb => ?_
    · rcases hold b hb with rfl | hb
      · exact hr.isBare.trans (ht.notBare hmem)
      · exact ht.notBare hb
    · rcases hold b hb with rfl | hb
      · exact ih (ht.branch hmem)
      · exact ht.branch hb

theorem Stocked.reorder {t t' : RetainTree V} (h : Stocked t) (hr : Reorder t t') : Stocked t' where
  wf := hr.wf h.wf
  pruned := hr.pruned h.pruned
  parsed ks hne := h.parsed ks (by rwa [hr.get h.wf] at hne)

/-! ## Retaining by a predicate -/

/-- What a visit of the nodes leaves of a tree: nothing is added, the count grows by the values that are
gone, and what one call of the predicate keeps up holds at the end. -/
structure Thins (inv : σ → ℕ → Prop) (t : RetainTree V) (s : σ) (r : ℕ)
    (out : RetainTree V × σ × ℕ) : Prop where
  paths : ∀ ks ∈ out.1.paths, ks ∈ t.paths
  pruned : t.Pruned → out.1.Pruned
  size : out.2.2 + out.1.valuesSize = r + t.valuesSize
  inv : inv s r → inv out.2.1 out.2.2

/-- The same for the loop over the branches of a node. -/
structure ThinsBranches (inv : σ → ℕ → Prop) (bs : List (Level × RetainTree V)) (s : σ) (r : ℕ)
    (out : List (Level × RetainTree V) × σ × ℕ) : Prop where
  branch : ∀ b' ∈ out.1, b'.2.isBare = false ∧ ∃ b ∈ bs, b.1 = b'.1 ∧
    (∀ ks ∈ b'.2.paths, ks ∈ b.2.paths) ∧ (b.2.Pruned → b'.2.Pruned)
  size : out.2.2 + branchesSize out.1 = r + branchesSize bs
  inv : inv s r → inv out.2.1 out.2.2

/-- A call of the predicate keeps up `inv`, which counts the values it refuses. -/
def Keep.Counts (f : Keep V σ) (inv : σ → ℕ → Prop) : Prop :=
  ∀ s v r, inv s r → inv (f s v).2.2 (if (f s v).1 then r else r + 1)

section

variable {f : Keep V σ} {inv : σ → ℕ → Prop} {t : RetainTree V} {s : σ} {r : ℕ}

theorem valuesSize_node (value : Option V) (t : RetainTree V) :
    valuesSize (.node value t.branches) = branchesSize t.branches + if value.isSome then 1 else 0 := by
  rw [valuesSize]
  cases value <;> rfl

theorem thins_node {value : Option V} {s' : σ} {r' : ℕ} (hvalue : value.isSome → t.payload.isSome)
    (hsize : r' + (if value.isSome then 1 else 0) = r + if t.payload.isSome then 1 else 0)
    (hinv : inv s r → inv s' r') : Thins inv t s r (.node value t.branches, s', r') where
  paths ks hks := by
    cases ks with
    | nil =>
      rw [Trie.nil_mem_paths_iff] at hks ⊢
      have := hvalue (Option.isSome_iff_ne_none.2 hks)
      exact Option.isSome_iff_ne_none.1 this
    | cons k ks =>
      rw [Trie.cons_mem_paths_iff] at hks ⊢
      exact hks
  pruned h := h.withPayload value
  size := by
    have hold := valuesSize_node t.payload t
    rw [Trie.node_eta] at hold
    dsimp only
    rw [valuesSize_node]
    omega
  inv := hinv

theorem thins_visit (hf : f.Counts inv) (t : RetainTree V) (s : σ) (r : ℕ) :
    Thins inv t s r (visit f t s r) := by
  have hcount := fun v => hf s v r
  unfold visit
  split
  · exact ⟨fun _ h => h, id, rfl, id⟩
  · rename_i v hv
    split
    · rename_i v' s' hstep
      have hinv := hcount v
      rw [hstep, if_pos rfl] at hinv
      exact thins_node (fun _ => by rw [hv]; rfl) (by rw [hv]; rfl) hinv
    · rename_i v' s' hstep
      have hinv := hcount v
      rw [hstep, if_neg Bool.false_ne_true] at hinv
      exact thins_node (nomatch ·) (by rw [hv]; rfl) hinv

theorem Thins.trans {out out' : RetainTree V × σ × ℕ} (h : Thins inv t s r out)
    (h' : Thins inv out.1 out.2.1 out.2.2 out') : Thins inv t s r out' where
  paths ks hks := h.paths ks (h'.paths ks hks)
  pruned ht := h'.pruned (h.pruned ht)
  size := h'.size.trans h.size
  inv hs := h'.inv (h.inv hs)

theorem valuesSize_of_isBare (h : t.isBare = true) : t.valuesSize = 0 := by
  obtain ⟨value, bs⟩ := t
  rw [Trie.isBare, Bool.and_eq_true, List.isEmpty_iff] at h
  obtain ⟨hvalue, rfl : bs = []⟩ := h
  cases value with
  | none => rfl
  | some v => cases hvalue

theorem thinsBranches_retainBranches (hf : f.Counts inv) (m : ℕ) (bs : List (Level × RetainTree V))
    (hbs : ∀ b ∈ bs, ∀ s r, Thins inv b.2 s r (retainNode f m b.2 s r)) (s : σ) (r : ℕ) :
    ThinsBranches inv bs s r (retainBranches f m bs s r) := by
  induction bs generalizing s r with
  | nil => exact ⟨nofun, rfl, id⟩
  | cons b bs ih =>
    obtain ⟨k, c⟩ := b
    obtain ⟨c₂, s₂, r₂, bs', s', r', hc₂, hloop, hout⟩ := retainBranches_cons f m k c bs s r
    have hvisit := (hbs (k, c) mem_cons_self s r).trans (thins_visit hf _ _ _)
    have hrest := ih (fun b hb => hbs b (mem_cons_of_mem _ hb)) s₂ r₂
    rw [hc₂] at hvisit
    rw [hloop] at hrest
    rw [hout]
    have hsize := hvisit.size
    have hsize' := hrest.size
    have hold : ∀ b' ∈ bs', b'.2.isBare = false ∧ ∃ b ∈ (k, c) :: bs, b.1 = b'.1 ∧
        (∀ ks ∈ b'.2.paths, ks ∈ b.2.paths) ∧ (b.2.Pruned → b'.2.Pruned) := by
      intro b' hb'
      obtain ⟨hbare, b, hb, hkept⟩ := hrest.branch b' hb'
      exact ⟨hbare, b, mem_cons_of_mem _ hb, hkept⟩
    refine ⟨fun b' hb' => ?_, ?_, fun hs => hrest.inv (hvisit.inv hs)⟩
    · dsimp only at hb'
      split_ifs at hb' with hbare
      · exact hold b' hb'
      · rcases mem_cons.1 hb' with rfl | hb'
        · exact ⟨by simpa using hbare, (k, c), mem_cons_self, rfl, hvisit.paths, hvisit.pruned⟩
        · exact hold b' hb'
    · dsimp only at hsize hsize' ⊢
      rw [branchesSize]
      split_ifs with hbare
      · rw [valuesSize_of_isBare hbare] at hsize
        omega
      · rw [branchesSize]
        omega

theorem thins_retainNode (hf : f.Counts inv) (m : ℕ) (t : RetainTree V) (s : σ) (r : ℕ) :
    Thins inv t s r (retainNode f m t s r) := by
  induction t using Trie.branchInduction generalizing s r with
  | node t ih =>
    obtain ⟨value, bs⟩ := t
    rw [retainNode]
    split_ifs
    · exact ⟨fun _ h => h, id, rfl, id⟩
    · have hloop := thinsBranches_retainBranches hf m bs ih s r
      rcases hout : retainBranches f m bs s r with ⟨bs', s', r'⟩
      rw [hout] at hloop
      refine ⟨fun ks hks => ?_, fun ht => ?_, ?_, hloop.inv⟩
      · cases ks with
        | nil => rwa [Trie.nil_mem_paths_iff] at hks ⊢
        | cons k ks =>
          rw [Trie.cons_mem_paths_iff] at hks ⊢
          obtain ⟨c', hc', hks⟩ := hks
          obtain ⟨-, ⟨k', c⟩, hc, rfl, hsub, -⟩ := hloop.branch _ hc'
          exact ⟨c, hc, hsub ks hks⟩
      · refine .intro (fun b' hb' => (hloop.branch b' hb').1) fun b' hb' => ?_
        obtain ⟨-, b, hb, -, -, hpruned⟩ := hloop.branch b' hb'
        exact hpruned (ht.branch hb)
      · have hsize := hloop.size
        dsimp only at hsize ⊢
        rw [valuesSize, valuesSize]
        split_ifs <;> omega

theorem thins_retain (hf : f.Counts inv) (t : RetainTree V) (m : ℕ) (s : σ) :
    Thins inv t s 0 (t.retain m f s) :=
  thins_retainNode hf m t s 0

theorem Stocked.retain (h : Stocked t) (m : ℕ) (f : Keep V σ) (s : σ) :
    Stocked (t.retain m f s).1 := by
  have hthins : Thins (fun _ _ => True) t s 0 (t.retain m f s) := thins_retain (fun _ _ _ => id) t m s
  have hwf : Trie.Wf (fun _ => True) (t.retain m f s).1 := wf_retainNode f m h.wf s 0
  refine ⟨hwf, hthins.pruned h.pruned, fun ks hne => h.parsed ks ?_⟩
  exact h.wf.mem_paths.1 (hthins.paths ks (hwf.mem_paths.2 hne))

end

/-- Every value of the tree has the property `q`. -/
inductive AllValues (q : V → Prop) : RetainTree V → Prop
  | intro {t : RetainTree V} : (∀ v, t.payload = some v → q v) →
      (∀ b ∈ t.branches, AllValues q b.2) → AllValues q t

section

variable {f : Keep V σ} {q : V → Prop} {t : RetainTree V}

theorem AllValues.payload (h : AllValues q t) {v : V} (hv : t.payload = some v) : q v := by
  cases h with
  | intro hpayload _ => exact hpayload v hv

theorem AllValues.branch (h : AllValues q t) {b : Level × RetainTree V} (hb : b ∈ t.branches) :
    AllValues q b.2 := by
  cases h with
  | intro _ hbelow => exact hbelow b hb

theorem allValues_iff {p : Level → Prop} (hw : Trie.Wf p t) :
    AllValues q t ↔ ∀ ks v, t.get ks = some v → q v := by
  induction t using Trie.branchInduction with
  | node t ih =>
    constructor
    · intro h ks v hv
      cases ks with
      | nil => exact h.payload ((Trie.get_nil t).symm.trans hv)
      | cons k ks =>
        rcases hc : t.child k with _ | c
        · rw [Trie.get_cons, hc] at hv
          exact nomatch hv
        · have hb := Trie.mem_branches_of_child hc
          rw [Trie.get_cons, hc] at hv
          exact (ih _ hb (hw.branch hb)).1 (h.branch hb) ks v hv
    · intro h
      refine .intro (fun v hv => h [] v ((Trie.get_nil t).trans hv)) fun b hb => ?_
      refine (ih b hb (hw.branch hb)).2 fun ks v hv => h (b.1 :: ks) v ?_
      rw [Trie.get_cons, hw.child_eq_some hb]
      exact hv

theorem allValues_visit (hf : ∀ s v, q v → q (f s v).2.1) (h : AllValues q t) (s : σ) (r : ℕ) :
    AllValues q (visit f t s r).1 := by
  refine .intro (fun v hv => ?_) fun b hb => h.branch (visit_branches f t s r ▸ hb)
  unfold visit at hv
  split at hv
  · exact h.payload hv
  · rename_i v₀ hv₀
    have hstep := hf s v₀ (h.payload hv₀)
    split at hv
    · rename_i v' s' heq
      rw [heq] at hstep
      exact Option.some.inj hv ▸ hstep
    · exact nomatch hv

theorem allValues_retainBranches (hf : ∀ s v, q v → q (f s v).2.1) (m : ℕ)
    {bs : List (Level × RetainTree V)} (hbs : ∀ b ∈ bs, ∀ s r, AllValues q (retainNode f m b.2 s r).1)
    (s : σ) (r : ℕ) : ∀ b ∈ (retainBranches f m bs s r).1, AllValues q b.2 := by
  induction bs generalizing s r with
  | nil => exact nofun
  | cons b bs ih =>
    obtain ⟨k, c⟩ := b
    intro b hb
    rw [retainBranches] at hb
    dsimp only at hb
    have hc := allValues_visit hf (hbs (k, c) mem_cons_self s r) (retainNode f m c s r).2.1
      (retainNode f m c s r).2.2
    split_ifs at hb
    · exact ih (fun b hb => hbs b (mem_cons_of_mem _ hb)) _ _ b hb
    · rcases mem_cons.1 hb with rfl | hb
      · exact hc
      · exact ih (fun b hb => hbs b (mem_cons_of_mem _ hb)) _ _ b hb

theorem allValues_retainNode (hf : ∀ s v, q v → q (f s v).2.1) (m : ℕ) (h : AllValues q t) (s : σ)
    (r : ℕ) : AllValues q (retainNode f m t s r).1 := by
  induction t using Trie.branchInduction generalizing s r with
  | node t ih =>
    obtain ⟨value, bs⟩ := t
    rw [retainNode]
    split_ifs
    · exact h
    · refine .intro (fun v hv => h.payload hv) ?_
      exact allValues_retainBranches hf m (fun b hb s r => ih b hb (h.branch hb) s r) s r

theorem Stocked.forall_retain (h : Stocked t) (hf : ∀ s v, q v → q (f s v).2.1)
    (hq : ∀ ks v, t.get ks = some v → q v) (m : ℕ) (s : σ) :
    ∀ ks v, (t.retain m f s).1.get ks = some v → q v :=
  (allValues_iff (h.retain m f s).wf).1 (allValues_retainNode hf m ((allValues_iff h.wf).2 hq) s 0)

end

end RetainTree

end FerroMq
