import Mathlib

/-!
# Binary heaps

The heap of Rust's standard library, whose root is greatest.  Which of several equal elements comes out first
follows from the moves in the array, so these are as in the library.
-/

namespace FerroMq.Lib

variable {α ι : Type} [LinearOrder ι] {n : ℕ}

namespace BinaryHeap

section

variable (key : α → ι)

/-- The element at a place goes up while it is greater than its parent. -/
def siftUp (data : Vector α n) (pos : ℕ) (hpos : pos < n) : Vector α n :=
  if h : 0 < pos then
    if key data[pos] ≤ key data[(pos - 1) / 2] then data
    else siftUp (data.swap pos ((pos - 1) / 2)) ((pos - 1) / 2) (by omega)
  else data

/-- The element goes down along the greater children, the second one of equals, and up again. -/
def siftDownToBottom (data : Vector α n) (pos : ℕ) (hpos : pos < n) : Vector α n :=
  if h : 2 * pos + 2 < n then
    if key data[2 * pos + 1] ≤ key data[2 * pos + 2] then
      siftDownToBottom (data.swap pos (2 * pos + 2)) (2 * pos + 2) h
    else siftDownToBottom (data.swap pos (2 * pos + 1)) (2 * pos + 1) (by omega)
  else if h : 2 * pos + 1 < n then siftUp key (data.swap pos (2 * pos + 1)) (2 * pos + 1) h
  else siftUp key data pos hpos
termination_by n - pos

/-- No element is greater than its parent. -/
def Ordered (data : Vector α n) : Prop := ∀ i (_ : i < n), 0 < i → key data[i] ≤ key data[(i - 1) / 2]

/-- The pairs without the element at a place are in order, and its children are not greater than its parent. -/
structure Hole (data : Vector α n) (pos : ℕ) (hpos : pos < n) : Prop where
  off : ∀ i (_ : i < n), 0 < i → i ≠ pos → (i - 1) / 2 ≠ pos → key data[i] ≤ key data[(i - 1) / 2]
  grand : ∀ i (_ : i < n), 0 < i → 0 < pos → (i - 1) / 2 = pos → key data[i] ≤ key data[(pos - 1) / 2]

end

variable {key : α → ι} {data : Vector α n}

theorem Ordered.push (hdata : Ordered key data) (x : α) : Hole key (data.push x) n n.lt_succ_self := by
  refine ⟨fun i hi h0 hne _ => ?_, fun i hi _ _ hpar => by omega⟩
  rw [Vector.getElem_push_lt (by omega), Vector.getElem_push_lt (by omega)]
  exact hdata i (by omega) h0

theorem Ordered.pop {data : Vector α (n + 1)} (hdata : Ordered key data) (hn : 0 < n) :
    Hole key (data.swap 0 n).pop 0 hn := by
  refine ⟨fun i hi h0 hne hpar => ?_, fun i _ _ h => (nomatch h)⟩
  rw [Vector.getElem_pop, Vector.getElem_pop, Vector.getElem_swap, Vector.getElem_swap, if_neg hne, if_neg (by omega),
    if_neg hpar, if_neg (by omega)]
  exact hdata i (by omega) h0

theorem Ordered.le_root (hdata : Ordered key data) {i : ℕ} (hi : i < n) : key data[i] ≤ key data[0] := by
  induction i using Nat.strong_induction_on with
  | h i ih =>
    obtain rfl | h0 := Nat.eq_zero_or_pos i
    · exact le_rfl
    · exact (hdata i hi h0).trans (ih _ (by omega) (by omega))

variable {pos : ℕ} {hpos : pos < n}

theorem siftUp_perm : (siftUp key data pos hpos).Perm data := by
  fun_induction siftUp key data pos hpos with
  | case1 => exact .rfl
  | case2 _ _ _ _ _ ih => exact ih.trans (Vector.swap_perm _ _)
  | case3 => exact .rfl

theorem siftDownToBottom_perm : (siftDownToBottom key data pos hpos).Perm data := by
  fun_induction siftDownToBottom key data pos hpos with
  | case1 _ _ _ _ _ ih | case2 _ _ _ _ _ ih => exact ih.trans (Vector.swap_perm _ _)
  | case3 => exact siftUp_perm.trans (Vector.swap_perm _ _)
  | case4 => exact siftUp_perm

theorem Hole.up (hdata : Hole key data pos hpos) (h : 0 < pos)
    (hgt : ¬ key data[pos] ≤ key data[(pos - 1) / 2]) :
    Hole key (data.swap pos ((pos - 1) / 2)) ((pos - 1) / 2) (by omega) ∧
      ∀ i (_ : i < n), 0 < i → (i - 1) / 2 = (pos - 1) / 2 →
        key (data.swap pos ((pos - 1) / 2))[i] ≤ key (data.swap pos ((pos - 1) / 2))[(pos - 1) / 2] := by
  obtain ⟨hoff, hgrand⟩ := hdata
  refine ⟨⟨fun i hi h0 hne hpar => ?_, fun i hi h0 hp hpar => ?_⟩, fun i hi h0 hpar => ?_⟩
  all_goals simp only [Vector.getElem_swap]
  all_goals grind

theorem Hole.down {c : ℕ} (hdata : Hole key data pos hpos) (hc : c < n) (h0 : 0 < c) (hpar : (c - 1) / 2 = pos)
    (hmax : ∀ i (_ : i < n), 0 < i → (i - 1) / 2 = pos → key data[i] ≤ key data[c]) :
    Hole key (data.swap pos c) c hc := by
  obtain ⟨hoff, hgrand⟩ := hdata
  refine ⟨fun i hi h0 hne hpar => ?_, fun i hi h0 hp hpar => ?_⟩
  all_goals simp only [Vector.getElem_swap]
  · grind
  · grind

theorem siftUp_ordered (hdata : Hole key data pos hpos)
    (hbelow : ∀ i (_ : i < n), 0 < i → (i - 1) / 2 = pos → key data[i] ≤ key data[pos]) :
    Ordered key (siftUp key data pos hpos) := by
  fun_induction siftUp key data pos hpos with
  | case1 data pos hpos h hle => exact fun i hi h0 => by grind [Hole]
  | case2 data pos hpos h hgt ih => exact ih (hdata.up h hgt).1 (hdata.up h hgt).2
  | case3 data pos hpos h => exact fun i hi h0 => by grind [Hole]

theorem siftDownToBottom_ordered (hdata : Hole key data pos hpos) :
    Ordered key (siftDownToBottom key data pos hpos) := by
  fun_induction siftDownToBottom key data pos hpos with
  | case1 data pos hpos h hle ih => exact ih (hdata.down h (by omega) (by omega) (by grind))
  | case2 data pos hpos h hgt ih => exact ih (hdata.down (by omega) (by omega) (by omega) (by grind))
  | case3 data pos hpos _ h =>
    exact siftUp_ordered (hdata.down h (by omega) (by omega) (by grind)) (by grind)
  | case4 data pos hpos => exact siftUp_ordered hdata (by grind)

end BinaryHeap

structure BinaryHeap (key : α → ι) where
  len : ℕ
  data : Vector α len
  ordered : BinaryHeap.Ordered key data

namespace BinaryHeap

variable {key : α → ι} (self : BinaryHeap key)

def empty : BinaryHeap key := ⟨0, #v[], fun _ h => (nomatch h)⟩

def toList : List α := self.data.toList

def peek : Option α := self.data[0]?

def push (x : α) : BinaryHeap key where
  len := self.len + 1
  data := siftUp key (self.data.push x) self.len (Nat.lt_succ_self _)
  ordered := siftUp_ordered (self.ordered.push x) (by omega)

/-- The last element takes the place of the root. -/
def pop : Option (α × BinaryHeap key) :=
  match self with
  | ⟨0, _, _⟩ => none
  | ⟨n + 1, data, h⟩ => some (data[0],
      if hn : 0 < n then ⟨n, siftDownToBottom key (data.swap 0 n).pop 0 hn, siftDownToBottom_ordered (h.pop hn)⟩
      else ⟨n, (data.swap 0 n).pop, by intro i hi; omega⟩)

variable {self} {x : α} {heap : BinaryHeap key}

theorem push_toList : (self.push x).toList.Perm (x :: self.toList) := by
  have hperm := Vector.perm_iff_toList_perm.1
    (@siftUp_perm _ _ _ _ key (self.data.push x) self.len self.len.lt_succ_self)
  rw [Vector.toList_push] at hperm
  exact hperm.trans (List.perm_append_singleton _ _)

theorem perm_swap_pop (data : Vector α (n + 1)) : data.toList.Perm (data[0] :: (data.swap 0 n).pop.toList) := by
  have hswap := Vector.perm_iff_toList_perm.1 (@Vector.swap_perm _ _ data 0 n (by omega) (by omega))
  have hpush : data.swap 0 n = (data.swap 0 n).pop.push data[0] := by
    refine Vector.ext fun i hi => ?_
    rw [Vector.getElem_push]
    grind
  rw [hpush, Vector.toList_push] at hswap
  exact hswap.symm.trans (List.perm_append_singleton _ _)

theorem pop_toList (h : self.pop = some (x, heap)) : self.toList.Perm (x :: heap.toList) := by
  obtain ⟨_ | n, data, hdata⟩ := self
  · exact nomatch h
  · obtain ⟨rfl, rfl⟩ := Prod.mk.inj (Option.some.inj h)
    refine (perm_swap_pop data).trans (.cons _ ?_)
    split_ifs
    · exact Vector.perm_iff_toList_perm.1 siftDownToBottom_perm.symm
    · exact .rfl

theorem le_peek (h : self.peek = some x) {y : α} (hy : y ∈ self.toList) : key y ≤ key x := by
  obtain ⟨i, hi, rfl⟩ := List.getElem_of_mem hy
  obtain ⟨hlt, rfl⟩ := Vector.getElem?_eq_some_iff.1 h
  exact self.ordered.le_root (by simpa [toList] using hi)

theorem pop_peek : self.pop.map Prod.fst = self.peek := by
  obtain ⟨_ | n, data, hdata⟩ := self
  · rfl
  · rfl

end BinaryHeap

end FerroMq.Lib
