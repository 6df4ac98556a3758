import Mathlib

/-!
# Reading a list page by page

A client asks for the pages at `0`, `limit`, `2 * limit`, … until an answer says that there are no more.  It
gets every element once, as one of the pages shows it (`fetchPages_spec`).
-/

namespace FerroMq.Lib

open List

variable {α β : Type}

def fetchPages (page : ℕ → ℕ → List β × Bool) (limit : ℕ) : ℕ → ℕ → ℕ → Option (List β)
  | 0, _, _ => none
  | fuel + 1, i, offset =>
    match page i offset with
    | (items, true) => (fetchPages page limit fuel (i + 1) (offset + limit)).map (items ++ ·)
    | (items, false) => some items

def pageOf (l : List β) (limit offset : ℕ) : List β × Bool :=
  ((l.drop offset).take limit, decide (offset + limit < l.length))

theorem fetchPages_mono {page : ℕ → ℕ → List β × Bool} {limit fuel fuel' i offset : ℕ} {out : List β}
    (h : fetchPages page limit fuel i offset = some out) (hle : fuel ≤ fuel') :
    fetchPages page limit fuel' i offset = some out := by
  induction fuel generalizing fuel' i offset out with
  | zero => exact nomatch h
  | succ fuel ih =>
    obtain ⟨fuel', rfl⟩ : ∃ m, fuel' = m + 1 := ⟨fuel' - 1, by omega⟩
    rw [fetchPages] at h ⊢
    generalize page i offset = answer at h ⊢
    obtain ⟨items, _ | _⟩ := answer
    · exact h
    · obtain ⟨rest, hrest, rfl⟩ := Option.map_eq_some_iff.1 h
      exact Option.map_eq_some_iff.2 ⟨rest, ih hrest (by omega), rfl⟩

theorem forall₂_map_right {r : α → β → Prop} {f : α → β} (l : List α) (h : ∀ a, r a (f a)) :
    List.Forall₂ r l (l.map f) := by
  rw [forall₂_map_right_iff]
  exact forall₂_same.2 fun a _ => h a

theorem forall₂_mem_left {r : α → β → Prop} {l : List α} {l' : List β} (h : List.Forall₂ r l l') {a : α}
    (ha : a ∈ l) : ∃ b ∈ l', r a b := by
  induction h with
  | nil => exact nomatch ha
  | @cons a' b l l' hr _ ih =>
    rcases mem_cons.1 ha with rfl | ha
    · exact ⟨b, mem_cons_self, hr⟩
    · obtain ⟨b', hb', hr'⟩ := ih ha
      exact ⟨b', mem_cons_of_mem b hb', hr'⟩

theorem forall₂_mem_right {r : α → β → Prop} {l : List α} {l' : List β} (h : List.Forall₂ r l l') {b : β}
    (hb : b ∈ l') : ∃ a ∈ l, r a b :=
  forall₂_mem_left (r := fun b a => r a b) (List.Forall₂.flip h) hb

theorem fetchPages_spec (l : List α) (shown : ℕ → α → β) {limit : ℕ} (hlimit : 1 ≤ limit) {fuel : ℕ}
    (i offset : ℕ) (hfuel : l.length < fuel + offset) (hoffset : offset = 0 ∨ offset < l.length) :
    ∃ out, fetchPages (fun i offset => pageOf (l.map (shown i)) limit offset) limit fuel i offset =
        some out ∧
      List.Forall₂ (fun a b => ∃ j, b = shown j a) (l.drop offset) out := by
  induction fuel generalizing i offset with
  | zero => omega
  | succ fuel ih =>
    have hpage : pageOf (l.map (shown i)) limit offset =
        (((l.drop offset).take limit).map (shown i), decide (offset + limit < l.length)) := by
      rw [pageOf, map_drop.symm, map_take.symm, length_map]
    have hitems : List.Forall₂ (fun a b => ∃ j, b = shown j a) ((l.drop offset).take limit)
        (((l.drop offset).take limit).map (shown i)) := forall₂_map_right _ fun a => ⟨i, rfl⟩
    rw [fetchPages, hpage]
    by_cases hmore : offset + limit < l.length
    · obtain ⟨out, hout, hrest⟩ := ih (i + 1) (offset + limit) (by omega) (.inr hmore)
      rw [decide_eq_true hmore, hout]
      refine ⟨_, rfl, ?_⟩
      have hsplit : l.drop offset = (l.drop offset).take limit ++ l.drop (offset + limit) := by
        rw [← drop_drop, take_append_drop]
      nth_rewrite 1 [hsplit]
      exact rel_append hitems hrest
    · rw [decide_eq_false hmore]
      refine ⟨_, rfl, ?_⟩
      rwa [take_of_length_le (by rw [length_drop]; omega)] at hitems ⊢

end FerroMq.Lib
