import Mathlib

/-!
# Tries with payloads

A trie stores a payload at every node and a table of branches whose order does not matter.  The writers are
`upsert`, which creates vacant nodes on its way, and `prune`, which drops every node of its path that is left
vacant and without branches; `get` describes both (`get_upsert`, `get_prune`).
-/

namespace FerroMq.Lib

open List

universe u v w

class Payload (P : Type v) where
  vacant : P
  isVacant : P → Bool
  isVacant_iff : ∀ p, isVacant p = true ↔ p = vacant

inductive Trie (K : Type u) (P : Type v) : Type (max u v)
  | node (payload : P) (branches : List (K × Trie K P))

namespace Trie

variable {K : Type u} {P : Type v} {R : Type w}

def payload : Trie K P → P
  | .node p _ => p

def branches : Trie K P → List (K × Trie K P)
  | .node _ bs => bs

@[simp] theorem payload_node (p : P) (bs : List (K × Trie K P)) : (node p bs).payload = p := rfl

@[simp] theorem branches_node (p : P) (bs : List (K × Trie K P)) : (node p bs).branches = bs := rfl

@[simp] theorem node_eta (t : Trie K P) : node t.payload t.branches = t := by
  cases t; rfl

theorem sizeOf_branch_lt [SizeOf K] [SizeOf P] {t : Trie K P} {b : K × Trie K P} (h : b ∈ t.branches) :
    sizeOf b.2 < sizeOf t := by
  obtain ⟨p, bs⟩ := t
  have hb : sizeOf b < sizeOf bs := sizeOf_lt_of_mem h
  obtain ⟨k, c⟩ := b
  simp only [Prod.mk.sizeOf_spec, node.sizeOf_spec] at hb ⊢
  omega

@[elab_as_elim]
theorem branchInduction {motive : Trie K P → Prop}
    (node : ∀ t : Trie K P, (∀ b ∈ t.branches, motive b.2) → motive t) (t : Trie K P) :
    motive t :=
  node t fun b hb =>
    have := sizeOf_branch_lt hb
    branchInduction node b.2
termination_by sizeOf t

section Branches

variable [DecidableEq K]

def setBranch (k : K) (c : Trie K P) : List (K × Trie K P) → List (K × Trie K P)
  | [] => [(k, c)]
  | b :: bs => if b.1 = k then (k, c) :: bs else b :: setBranch k c bs

def eraseBranch (k : K) (bs : List (K × Trie K P)) : List (K × Trie K P) :=
  bs.filter fun b => b.1 ≠ k

def child (t : Trie K P) (k : K) : Option (Trie K P) := t.branches.lookup k

theorem lookup_cons_ite (k : K) (b : K × Trie K P) (bs : List (K × Trie K P)) :
    (b :: bs).lookup k = if k = b.1 then some b.2 else bs.lookup k := by
  obtain ⟨k', c⟩ := b
  by_cases h : k = k'
  · simp [h]
  · simp [List.lookup, h, beq_eq_false_iff_ne.2 h]

theorem lookup_setBranch (k k' : K) (c : Trie K P) (bs : List (K × Trie K P)) :
    (setBranch k c bs).lookup k' = if k' = k then some c else bs.lookup k' := by
  induction bs with
  | nil => simp only [setBranch, lookup_cons_ite]
  | cons b bs ih =>
    rw [setBranch]
    split_ifs with hb hk hk
    · rw [lookup_cons_ite, if_pos hk]
    · rw [lookup_cons_ite, lookup_cons_ite, if_neg hk, if_neg (hb ▸ hk)]
    · rw [lookup_cons_ite, ih, if_pos hk, if_neg fun h : k' = b.1 => hb (h ▸ hk)]
    · rw [lookup_cons_ite, lookup_cons_ite, ih, if_neg hk]

theorem lookup_eraseBranch (k k' : K) (bs : List (K × Trie K P)) :
    (eraseBranch k bs).lookup k' = if k' = k then none else bs.lookup k' := by
  induction bs with
  | nil => simp [eraseBranch]
  | cons b bs ih =>
    simp only [eraseBranch] at ih ⊢
    by_cases hb : b.1 = k
    · rw [filter_cons_of_neg (by simpa using hb), ih, lookup_cons_ite, hb]
      split_ifs <;> rfl
    · rw [filter_cons_of_pos (by simpa using hb), lookup_cons_ite, ih, lookup_cons_ite]
      by_cases hk : k' = k
      · rw [if_neg fun h : k' = b.1 => hb (h ▸ hk), if_pos hk, if_pos hk]
      · rw [if_neg hk, if_neg hk]

theorem child_node (p : P) (bs : List (K × Trie K P)) (k : K) :
    (node p bs).child k = bs.lookup k := rfl

theorem mem_branches_of_child {t c : Trie K P} {k : K} (h : t.child k = some c) :
    (k, c) ∈ t.branches := by
  unfold child at h
  obtain ⟨l₁, l₂, hl, -⟩ := lookup_eq_some_iff.1 h
  simp [hl]

theorem sizeOf_child_lt [SizeOf K] [SizeOf P] {t c : Trie K P} {k : K} (h : t.child k = some c) :
    sizeOf c < sizeOf t :=
  sizeOf_branch_lt (mem_branches_of_child h)

end Branches

/-! ## Well-formed tries -/

/-- Every node of the trie has no key twice, and only keys with the property `p`. -/
inductive Wf (p : K → Prop) : Trie K P → Prop
  | intro {t : Trie K P} : (t.branches.map Prod.fst).Nodup → (∀ b ∈ t.branches, p b.1) →
      (∀ b ∈ t.branches, Wf p b.2) → Wf p t

namespace Wf

variable {p : K → Prop} {t c : Trie K P}

theorem nodup (h : Wf p t) : (t.branches.map Prod.fst).Nodup := by
  cases h; assumption

theorem key (h : Wf p t) {b : K × Trie K P} (hb : b ∈ t.branches) : p b.1 := by
  cases h with
  | intro _ hkeys _ => exact hkeys b hb

theorem branch (h : Wf p t) {b : K × Trie K P} (hb : b ∈ t.branches) : Wf p b.2 := by
  cases h with
  | intro _ _ hbelow => exact hbelow b hb

theorem withPayload (h : Wf p t) (q : P) : Wf p (node q t.branches) :=
  .intro h.nodup (fun _ hb => h.key hb) fun _ hb => h.branch hb

theorem child_eq_some [DecidableEq K] (h : Wf p t) {k : K} (hb : (k, c) ∈ t.branches) :
    t.child k = some c := by
  have hnd := h.nodup
  unfold child
  generalize t.branches = bs at hb hnd
  induction bs with
  | nil => simp at hb
  | cons b bs ih =>
    rw [map_cons, nodup_cons] at hnd
    rw [lookup_cons_ite]
    rcases mem_cons.1 hb with rfl | hb
    · rw [if_pos rfl]
    · rw [if_neg, ih hb hnd.2]
      intro heq
      exact hnd.1 (mem_map.2 ⟨_, hb, heq⟩)

theorem of_child [DecidableEq K] (h : Wf p t) {k : K} (hc : t.child k = some c) : Wf p c :=
  h.branch (mem_branches_of_child hc)

theorem child_eq_none [DecidableEq K] (h : Wf p t) {k : K} (hk : ¬ p k) : t.child k = none := by
  rcases hc : t.child k with _ | c
  · rfl
  · exact absurd (h.key (mem_branches_of_child hc)) hk

end Wf

section WfBranches

variable [DecidableEq K] {p : K → Prop} {t c : Trie K P}

theorem mem_setBranch {k : K} {bs : List (K × Trie K P)} {b : K × Trie K P}
    (h : b ∈ setBranch k c bs) : b = (k, c) ∨ b ∈ bs := by
  induction bs with
  | nil => exact Or.inl (by simpa [setBranch] using h)
  | cons b' bs ih =>
    rw [setBranch] at h
    split_ifs at h
    · rcases mem_cons.1 h with h | h
      · exact Or.inl h
      · exact Or.inr (mem_cons_of_mem _ h)
    · rcases mem_cons.1 h with h | h
      · exact Or.inr (h ▸ mem_cons_self)
      · exact (ih h).imp_right (mem_cons_of_mem _)

theorem nodup_setBranch {k : K} {bs : List (K × Trie K P)} (h : (bs.map Prod.fst).Nodup) :
    ((setBranch k c bs).map Prod.fst).Nodup := by
  induction bs with
  | nil => simp [setBranch]
  | cons b bs ih =>
    rw [map_cons, nodup_cons] at h
    rw [setBranch]
    split_ifs with hb
    · rw [map_cons, nodup_cons]
      exact ⟨hb ▸ h.1, h.2⟩
    · rw [map_cons, nodup_cons]
      refine ⟨fun hmem => ?_, ih h.2⟩
      obtain ⟨b', hb', heq⟩ := mem_map.1 hmem
      rcases mem_setBranch hb' with rfl | hb'
      · exact hb heq.symm
      · exact h.1 (heq ▸ mem_map_of_mem hb')

theorem Wf.node_setBranch (h : Wf p t) {k : K} (hk : p k) (hc : Wf p c) (q : P) :
    Wf p (node q (setBranch k c t.branches)) := by
  refine .intro (nodup_setBranch h.nodup) (fun b hb => ?_) fun b hb => ?_
  · rcases mem_setBranch hb with rfl | hb
    · exact hk
    · exact h.key hb
  · rcases mem_setBranch hb with rfl | hb
    · exact hc
    · exact h.branch hb

theorem Wf.node_eraseBranch (h : Wf p t) (k : K) (q : P) :
    Wf p (node q (eraseBranch k t.branches)) := by
  have hsub : (eraseBranch k t.branches).Sublist t.branches := filter_sublist
  exact .intro (h.nodup.sublist (hsub.map _)) (fun b hb => h.key (hsub.subset hb))
    fun b hb => h.branch (hsub.subset hb)

end WfBranches

section Paths

variable [DecidableEq K] [Payload P]

def empty : Trie K P := node Payload.vacant []

/-- The payload at the end of a path, vacant where the path leaves the trie. -/
def get : Trie K P → List K → P
  | t, [] => t.payload
  | t, k :: ks =>
    match t.child k with
    | some c => get c ks
    | none => Payload.vacant

/-- Rewrite the payload at a path, creating the missing nodes of the path. -/
def upsert (f : P → P × R) : Trie K P → List K → Trie K P × R
  | t, [] => (node (f t.payload).1 t.branches, (f t.payload).2)
  | t, k :: ks =>
    let r := upsert f ((t.child k).getD empty) ks
    (node t.payload (setBranch k r.1 t.branches), r.2)

def isBare (t : Trie K P) : Bool := Payload.isVacant t.payload && t.branches.isEmpty

/-- Put back a rewritten branch, or drop it if it is left bare. -/
def putBranch (k : K) (c : Trie K P) (bs : List (K × Trie K P)) : List (K × Trie K P) :=
  if c.isBare then eraseBranch k bs else setBranch k c bs

/-- Rewrite the payload at an existing path and drop the nodes of the path left bare; the answer is
`d` when the path leaves the trie. -/
def prune (f : P → P × R) (d : R) : Trie K P → List K → Trie K P × R
  | t, [] => (node (f t.payload).1 t.branches, (f t.payload).2)
  | t, k :: ks =>
    match t.child k with
    | some c =>
      let r := prune f d c ks
      (node t.payload (putBranch k r.1 t.branches), r.2)
    | none => (t, d)

@[simp] theorem get_nil (t : Trie K P) : t.get [] = t.payload := by
  cases t; rfl

theorem get_cons (t : Trie K P) (k : K) (ks : List K) :
    t.get (k :: ks) = ((t.child k).map fun c => c.get ks).getD Payload.vacant := by
  rw [get]
  cases t.child k <;> rfl

@[simp] theorem get_empty (ks : List K) : (empty : Trie K P).get ks = Payload.vacant := by
  cases ks with
  | nil => rfl
  | cons k ks => simp [get_cons, empty, child_node]

theorem get_getD_child (t : Trie K P) (k : K) (ks : List K) :
    ((t.child k).getD empty).get ks = t.get (k :: ks) := by
  rw [get_cons]
  cases t.child k <;> simp

theorem get_upsert (f : P → P × R) (t : Trie K P) (ks ks' : List K) :
    (upsert f t ks).1.get ks' = if ks' = ks then (f (t.get ks)).1 else t.get ks' := by
  induction ks generalizing t ks' with
  | nil =>
    cases ks' with
    | nil => simp [upsert]
    | cons k' ks' => simp [upsert, get_cons, child]
  | cons k ks ih =>
    cases ks' with
    | nil => simp [upsert]
    | cons k' ks' =>
      simp only [upsert, get_cons _ k' ks', child_node, lookup_setBranch]
      by_cases hk : k' = k
      · subst hk
        rw [if_pos rfl, Option.map_some, Option.getD_some, ih, get_getD_child, get_getD_child]
        simp [get_cons]
      · simp [hk, child]

variable {t : Trie K P} {p : K → Prop}

theorem get_of_isBare (h : t.isBare = true) (ks : List K) : t.get ks = Payload.vacant := by
  obtain ⟨p, bs⟩ := t
  simp only [isBare, payload_node, branches_node, Bool.and_eq_true, List.isEmpty_iff] at h
  obtain ⟨hp, rfl⟩ := h
  cases ks with
  | nil => simpa using (Payload.isVacant_iff p).1 hp
  | cons k ks => simp [get_cons, child_node]

theorem get_node_putBranch (p : P) (k k' : K) (c : Trie K P) (bs : List (K × Trie K P))
    (ks : List K) : (node p (putBranch k c bs)).get (k' :: ks) =
      if k' = k then c.get ks else (node p bs).get (k' :: ks) := by
  rw [get_cons, get_cons, child_node, child_node, putBranch]
  by_cases hk : k' = k
  · split_ifs with hb
    · rw [lookup_eraseBranch, if_pos hk, get_of_isBare hb]
      rfl
    · rw [lookup_setBranch, if_pos hk]
      rfl
  · rw [if_neg hk]
    split_ifs
    · rw [lookup_eraseBranch, if_neg hk]
    · rw [lookup_setBranch, if_neg hk]

section Prune

variable {f : P → P × R} {d : R} (hf : f Payload.vacant = (Payload.vacant, d))

include hf

/-- Removing at a path changes the payload of that path and of no other one, provided that
removing from the vacant payload does nothing. -/
theorem get_prune (t : Trie K P) (ks ks' : List K) :
    (prune f d t ks).1.get ks' = if ks' = ks then (f (t.get ks)).1 else t.get ks' := by
  induction ks generalizing t ks' with
  | nil =>
    cases ks' with
    | nil => simp [prune]
    | cons k' ks' => simp [prune, get_cons, child]
  | cons k ks ih =>
    rcases hc : t.child k with _ | c
    · have hvac : t.get (k :: ks) = Payload.vacant := by simp [get_cons, hc]
      rw [prune, hc]
      split_ifs with hks
      · rw [hks, hvac, hf]
      · rfl
    · have hget : t.get (k :: ks) = c.get ks := by simp [get_cons, hc]
      rw [prune, hc]
      cases ks' with
      | nil => simp
      | cons k' ks' =>
        rw [get_node_putBranch, node_eta, hget]
        by_cases hk : k' = k
        · subst hk
          rw [if_pos rfl, ih]
          simp [get_cons, hc]
        · rw [if_neg hk, if_neg fun h => hk (List.cons.inj h).1]

theorem prune_snd (t : Trie K P) (ks : List K) : (prune f d t ks).2 = (f (t.get ks)).2 := by
  induction ks generalizing t with
  | nil => simp [prune]
  | cons k ks ih =>
    rcases hc : t.child k with _ | c
    · simp [prune, get_cons, hc, hf]
    · simp [prune, get_cons, hc, ih]

end Prune

omit [DecidableEq K] in
theorem wf_empty (p : K → Prop) : Wf p (empty : Trie K P) :=
  .intro (by simp [empty]) (by simp [empty]) (by simp [empty])

theorem Wf.upsert (f : P → P × R) (h : Wf p t) {ks : List K}
    (hks : ∀ k ∈ ks, p k) : Wf p (t.upsert f ks).1 := by
  induction ks generalizing t with
  | nil => exact h.withPayload _
  | cons k ks ih =>
    refine h.node_setBranch (hks k (by simp)) (ih ?_ fun k' hk' => hks k' (by simp [hk'])) _
    rcases hc : t.child k with _ | c
    · exact wf_empty p
    · exact h.of_child hc

theorem Wf.key_of_get (h : Wf p t) {ks : List K} (hne : t.get ks ≠ Payload.vacant) : ∀ k ∈ ks, p k := by
  induction ks generalizing t with
  | nil => simp
  | cons k ks ih =>
    rw [get_cons] at hne
    rcases hc : t.child k with _ | c
    · simp [hc] at hne
    · rw [hc] at hne
      intro k' hk'
      rcases mem_cons.1 hk' with rfl | hk'
      · exact h.key (mem_branches_of_child hc)
      · exact ih (h.of_child hc) hne k' hk'

theorem Wf.prune (f : P → P × R) (d : R) (h : Wf p t) (ks : List K) : Wf p (t.prune f d ks).1 := by
  induction ks generalizing t with
  | nil => exact h.withPayload _
  | cons k ks ih =>
    rw [Trie.prune]
    rcases hc : t.child k with _ | c
    · exact h
    · simp only [putBranch]
      split_ifs
      · exact h.node_eraseBranch k _
      · exact h.node_setBranch (h.key (mem_branches_of_child hc)) (ih (h.of_child hc)) _

end Paths

end Trie

end FerroMq.Lib
