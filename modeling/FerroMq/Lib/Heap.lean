import Mathlib

/-!
# Priority queues

A heap as the order in which it gives out its items, and the loop that looks at the first item and either
takes it out or stops (`Heap.drain`).
-/

namespace FerroMq.Lib

variable {α β : Type}

structure Heap (α : Type) (r : α → α → Prop) where
  /-- First the item that `pop` returns next. -/
  items : List α
  sorted : items.Pairwise r

namespace Heap

variable {r : α → α → Prop}

def empty : Heap α r := ⟨[], .nil⟩

def push [DecidableRel r] [Std.Total r] [IsTrans α r] (h : Heap α r) (a : α) : Heap α r :=
  ⟨h.items.orderedInsert r a, h.sorted.orderedInsert a _⟩

@[simp] theorem mem_push [DecidableRel r] [Std.Total r] [IsTrans α r] {h : Heap α r} {a b : α} :
    b ∈ (h.push a).items ↔ b = a ∨ b ∈ h.items :=
  List.mem_orderedInsert r

theorem push_perm [DecidableRel r] [Std.Total r] [IsTrans α r] (h : Heap α r) (a : α) :
    (h.push a).items.Perm (a :: h.items) :=
  List.perm_orderedInsert r a h.items

theorem length_takeWhile (h : Heap α r) {p : α → Bool} (hp : ∀ a b, r a b → p b = true → p a = true) :
    (h.items.takeWhile p).length = h.items.countP p := by
  obtain ⟨items, hsorted⟩ := h
  induction hsorted with
  | nil => rfl
  | @cons a items hfirst _ ih =>
    cases ha : p a with
    | true => rw [List.takeWhile_cons_of_pos ha, List.countP_cons_of_pos ha, List.length_cons, ih]
    | false =>
      rw [List.takeWhile_cons_of_neg (by simp [ha]), List.countP_cons_of_neg (by simp [ha]), eq_comm,
        List.length_nil, List.countP_eq_zero]
      intro b hb hpb
      exact absurd (hp a b (hfirst b hb) hpb) (by simp [ha])

/-! ## Taking items out -/

def drainItems (next : β → α → Option β) : β → List α → β × List α
  | b, [] => (b, [])
  | b, a :: l =>
    match next b a with
    | none => (b, a :: l)
    | some b' => drainItems next b' l

variable (next : β → α → Option β)

theorem drainItems_suffix (b : β) (l : List α) :
    (drainItems next b l).2 <:+ l := by
  induction l generalizing b with
  | nil => exact List.suffix_rfl
  | cons a l ih =>
    rw [drainItems]
    split
    · exact List.suffix_rfl
    · next b' _ => exact (ih b').trans (List.suffix_cons a l)

def drain (next : β → α → Option β) (b : β) (h : Heap α r) : β × Heap α r :=
  ((drainItems next b h.items).1,
    ⟨(drainItems next b h.items).2, h.sorted.sublist (drainItems_suffix next b h.items).sublist⟩)

theorem drain_fst (b : β) (h : Heap α r) :
    (h.drain next b).1 = (drainItems next b h.items).1 := rfl

theorem items_drain_snd (b : β) (h : Heap α r) :
    (h.drain next b).2.items = (drainItems next b h.items).2 := rfl

end Heap

end FerroMq.Lib
