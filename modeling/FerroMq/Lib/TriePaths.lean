import FerroMq.Lib.Trie

/-!
# The entries of a trie

`Trie.paths` lists the paths that hold something, each once (`nodup_paths`, `mem_paths`), so that its length
counts the entries.  In a `Pruned` trie every branch leads to an entry (`Pruned.exists_get`).
-/

namespace FerroMq.Lib

open List

namespace Trie

universe u v w

variable {K : Type u} {P : Type v} {R : Type w} [Payload P]

mutual

def paths : Trie K P → List (List K)
  | .node p bs => pathsBelow bs ++ if Payload.isVacant p then [] else [[]]

def pathsBelow : List (K × Trie K P) → List (List K)
  | [] => []
  | (k, c) :: bs => (paths c).map (k :: ·) ++ pathsBelow bs

end

theorem pathsBelow_eq (bs : List (K × Trie K P)) :
    pathsBelow bs = bs.flatMap fun b => b.2.paths.map (b.1 :: ·) := by
  induction bs with
  | nil => rfl
  | cons b bs ih => rw [pathsBelow, ih, flatMap_cons]

theorem paths_eq (t : Trie K P) : t.paths =
    pathsBelow t.branches ++ if Payload.isVacant t.payload then [] else [[]] := by
  cases t
  rw [paths]
  rfl

theorem length_pathsBelow (bs : List (K × Trie K P)) :
    (pathsBelow bs).length = (bs.map fun b => b.2.paths.length).sum := by
  rw [pathsBelow_eq, length_flatMap]
  simp only [length_map]

variable {t : Trie K P}

theorem nil_mem_paths_iff : [] ∈ t.paths ↔ t.payload ≠ Payload.vacant := by
  have hbelow : [] ∉ pathsBelow t.branches := by
    rw [pathsBelow_eq]
    simp
  rw [paths_eq, mem_append, or_iff_right hbelow, ne_eq, ← Payload.isVacant_iff]
  split_ifs with h <;> simp [h]

theorem cons_mem_paths_iff {k : K} {ks : List K} :
    k :: ks ∈ t.paths ↔ ∃ c, (k, c) ∈ t.branches ∧ ks ∈ c.paths := by
  have hroot : k :: ks ∉ (if Payload.isVacant t.payload then [] else [[]] : List (List K)) := by
    split_ifs <;> simp
  rw [paths_eq, mem_append, or_iff_left hroot, pathsBelow_eq, mem_flatMap]
  constructor
  · rintro ⟨⟨k', c⟩, hb, hmem⟩
    obtain ⟨ks', hks', heq⟩ := mem_map.1 hmem
    obtain ⟨rfl, rfl⟩ := List.cons.inj heq
    exact ⟨c, hb, hks'⟩
  · rintro ⟨c, hb, hks⟩
    exact ⟨(k, c), hb, mem_map_of_mem hks⟩

theorem Wf.nodup_paths {p : K → Prop} (h : Wf p t) : t.paths.Nodup := by
  induction t using branchInduction with
  | node t ih =>
    rw [paths_eq, nodup_append]
    refine ⟨?_, by split_ifs <;> simp, fun ks hks ks' hks' => ?_⟩
    · -- different branches differ in the first key of their paths
      rw [pathsBelow_eq, nodup_flatMap]
      refine ⟨fun b hb => (ih b hb (h.branch hb)).map (cons_injective), ?_⟩
      refine (pairwise_map.1 h.nodup).imp fun {b b'} hne => ?_
      intro ks hks hks'
      obtain ⟨_, -, rfl⟩ := mem_map.1 hks
      obtain ⟨_, -, heq⟩ := mem_map.1 hks'
      exact hne (List.cons.inj heq).1.symm
    · rintro rfl
      have hnil : ks = [] := by
        split_ifs at hks'
        · exact nomatch hks'
        · exact mem_singleton.1 hks'
      subst hnil
      rw [pathsBelow_eq] at hks
      simp at hks

section

variable [DecidableEq K]

variable {t : Trie K P} {ks : List K} {p : K → Prop}

theorem mem_paths_of_get (h : t.get ks ≠ Payload.vacant) : ks ∈ t.paths := by
  induction ks generalizing t with
  | nil => rwa [nil_mem_paths_iff, ← get_nil]
  | cons k ks ih =>
    rw [get_cons] at h
    rcases hc : t.child k with _ | c
    · rw [hc] at h
      exact absurd rfl h
    · rw [hc] at h
      exact cons_mem_paths_iff.2 ⟨c, mem_branches_of_child hc, ih h⟩

theorem Wf.mem_paths (h : Wf p t) : ks ∈ t.paths ↔ t.get ks ≠ Payload.vacant := by
  refine ⟨fun hks => ?_, mem_paths_of_get⟩
  induction ks generalizing t with
  | nil => rwa [get_nil, ← nil_mem_paths_iff]
  | cons k ks ih =>
    obtain ⟨c, hc, hks⟩ := cons_mem_paths_iff.1 hks
    rw [get_cons, h.child_eq_some hc]
    exact ih (h.branch hc) hks

theorem length_paths_congr {q : K → Prop} {t' : Trie K P} (h : Wf p t) (h' : Wf q t')
    (heq : ∀ ks, t.get ks = Payload.vacant ↔ t'.get ks = Payload.vacant) :
    t.paths.length = t'.paths.length := by
  refine ((perm_ext_iff_of_nodup h.nodup_paths h'.nodup_paths).2 fun ks => ?_).length_eq
  rw [h.mem_paths, h'.mem_paths, ne_eq, ne_eq, heq]

theorem length_paths_upsert {f : P → P × R} (h : Wf p t)
    (hks : ∀ k ∈ ks, p k) (hf : (f (t.get ks)).1 ≠ Payload.vacant) : (t.upsert f ks).1.paths.length =
      t.paths.length + if Payload.isVacant (t.get ks) then 1 else 0 := by
  have hw := h.upsert f hks
  have hset : (t.upsert f ks).1.paths.toFinset = insert ks t.paths.toFinset := by
    ext ks'
    rw [mem_toFinset, Finset.mem_insert, mem_toFinset, hw.mem_paths, h.mem_paths, get_upsert]
    split_ifs with heq
    · exact iff_of_true hf (.inl heq)
    · exact (or_iff_right heq).symm
  rw [← toFinset_card_of_nodup hw.nodup_paths, hset, ← toFinset_card_of_nodup h.nodup_paths]
  split_ifs with hvac
  · refine Finset.card_insert_of_notMem fun hmem => ?_
    exact h.mem_paths.1 (mem_toFinset.1 hmem) ((Payload.isVacant_iff _).1 hvac)
  · refine congrArg Finset.card (Finset.insert_eq_of_mem (mem_toFinset.2 (h.mem_paths.2 ?_)))
    exact fun hget => hvac ((Payload.isVacant_iff _).2 hget)

theorem length_paths_prune {f : P → P × R} {d : R} (h : Wf p t) (hf : f Payload.vacant = (Payload.vacant, d))
    (hvac : (f (t.get ks)).1 = Payload.vacant) :
    (t.prune f d ks).1.paths.length + (if Payload.isVacant (t.get ks) then 0 else 1) = t.paths.length := by
  have hw := h.prune f d ks
  have hset : (t.prune f d ks).1.paths.toFinset = t.paths.toFinset.erase ks := by
    ext ks'
    rw [mem_toFinset, Finset.mem_erase, mem_toFinset, hw.mem_paths, h.mem_paths,
      get_prune hf]
    split_ifs with heq
    · exact iff_of_false (fun hne => hne hvac) fun hne => hne.1 heq
    · exact (and_iff_right heq).symm
  rw [← toFinset_card_of_nodup hw.nodup_paths, hset, ← toFinset_card_of_nodup h.nodup_paths]
  split_ifs with hget
  · rw [Nat.add_zero, Finset.erase_eq_of_notMem]
    intro hmem
    exact h.mem_paths.1 (mem_toFinset.1 hmem) ((Payload.isVacant_iff _).1 hget)
  · refine Finset.card_erase_add_one (mem_toFinset.2 (h.mem_paths.2 ?_))
    exact fun heq => hget ((Payload.isVacant_iff _).2 heq)

end

/-! ## Tries without bare branches -/

/-- No branch of any node is bare. -/
inductive Pruned : Trie K P → Prop
  | intro {t : Trie K P} : (∀ b ∈ t.branches, b.2.isBare = false) →
      (∀ b ∈ t.branches, Pruned b.2) → Pruned t

namespace Pruned

variable {t c : Trie K P}

theorem notBare (h : Pruned t) {b : K × Trie K P} (hb : b ∈ t.branches) : b.2.isBare = false := by
  cases h with
  | intro hbare _ => exact hbare b hb

theorem branch (h : Pruned t) {b : K × Trie K P} (hb : b ∈ t.branches) : Pruned b.2 := by
  cases h with
  | intro _ hbelow => exact hbelow b hb

theorem withPayload (h : Pruned t) (q : P) : Pruned (node q t.branches) :=
  .intro (fun _ hb => h.notBare hb) fun _ hb => h.branch hb

theorem empty : Pruned (empty : Trie K P) :=
  .intro nofun nofun

theorem paths_ne_nil (h : Pruned t) (hbare : t.isBare = false) : t.paths ≠ [] := by
  induction t using branchInduction with
  | node t ih =>
    rw [isBare, Bool.and_eq_false_iff] at hbare
    rcases hbare with hvac | hbranches
    · rw [paths_eq, hvac]
      simp
    · obtain ⟨b, hb⟩ := exists_mem_of_ne_nil _ (by simpa using hbranches)
      obtain ⟨ks, hks⟩ := exists_mem_of_ne_nil _ (ih b hb (h.branch hb) (h.notBare hb))
      exact ne_nil_of_mem (cons_mem_paths_iff.2 ⟨b.2, hb, hks⟩)

variable [DecidableEq K]

theorem exists_get {p : K → Prop} (h : Pruned t) (hw : Wf p t) {k : K} (hc : t.child k = some c) :
    ∃ ks, t.get (k :: ks) ≠ Payload.vacant := by
  have hb := mem_branches_of_child hc
  obtain ⟨ks, hks⟩ := exists_mem_of_ne_nil _ ((h.branch hb).paths_ne_nil (h.notBare hb))
  refine ⟨ks, ?_⟩
  rw [get_cons, hc]
  exact (hw.branch hb).mem_paths.1 hks

theorem node_setBranch (h : Pruned t) {k : K} (hbare : c.isBare = false) (hc : Pruned c) (q : P) :
    Pruned (node q (setBranch k c t.branches)) := by
  refine .intro (fun b hb => ?_) fun b hb => ?_
  · rcases mem_setBranch hb with rfl | hb
    · exact hbare
    · exact h.notBare hb
  · rcases mem_setBranch hb with rfl | hb
    · exact hc
    · exact h.branch hb

theorem isBare_eq_false_of_get {ks : List K} (h : t.get ks ≠ Payload.vacant) : t.isBare = false := by
  rcases hb : t.isBare with _ | _
  · rfl
  · exact absurd (get_of_isBare hb ks) h

theorem upsert {f : P → P × R} (h : Pruned t) {ks : List K}
    (hf : (f (t.get ks)).1 ≠ Payload.vacant) : Pruned (t.upsert f ks).1 := by
  induction ks generalizing t with
  | nil => exact h.withPayload _
  | cons k ks ih =>
    have hget : ((t.child k).getD Trie.empty).get ks = t.get (k :: ks) := get_getD_child t k ks
    have hchild : Pruned ((t.child k).getD Trie.empty) := by
      rcases hc : t.child k with _ | c
      · exact empty
      · exact h.branch (mem_branches_of_child hc)
    have hne : (Trie.upsert f ((t.child k).getD Trie.empty) ks).1.get ks ≠ Payload.vacant := by
      rw [get_upsert, if_pos rfl, hget]
      exact hf
    exact h.node_setBranch (isBare_eq_false_of_get hne) (ih hchild (by rwa [hget])) _

theorem prune (f : P → P × R) (d : R) (h : Pruned t) (ks : List K) : Pruned (t.prune f d ks).1 := by
  induction ks generalizing t with
  | nil => exact h.withPayload _
  | cons k ks ih =>
    rw [Trie.prune]
    rcases hc : t.child k with _ | c
    · exact h
    · have hbranch := h.branch (mem_branches_of_child hc)
      dsimp only
      rw [putBranch]
      split_ifs with hbare
      · have hsub : (eraseBranch k t.branches).Sublist t.branches := filter_sublist
        exact .intro (fun b hb => h.notBare (hsub.subset hb)) fun b hb => h.branch (hsub.subset hb)
      · exact h.node_setBranch (by simpa using hbare) (ih hbranch) _

end Pruned

end Trie

end FerroMq.Lib
