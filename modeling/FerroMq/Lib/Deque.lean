import Mathlib

/-!
# Maps with an order

`DequeMap K V` is a map whose entries stand in a queue.  Where an entry goes whose key is there already is left
open (`keepsPlace`).
-/

namespace FerroMq.Lib

open List

structure DequeMap (K V : Type) where
  entries : List (K × V)
  nodup : (entries.map Prod.fst).Nodup

namespace DequeMap

variable {K V : Type}

def empty : DequeMap K V := ⟨[], List.nodup_nil⟩

def keys (m : DequeMap K V) : List K := m.entries.map Prod.fst

variable {m : DequeMap K V} {k : K} {e : K × V}

theorem mem_keys : k ∈ m.keys ↔ ∃ v, (k, v) ∈ m.entries := by
  simp [keys]

theorem mem_keys_of_mem (h : e ∈ m.entries) : e.1 ∈ m.keys :=
  mem_map_of_mem h

theorem eq_of_mem {v v' : V} (h : (k, v) ∈ m.entries) (h' : (k, v') ∈ m.entries) : v = v' :=
  (Prod.mk.inj (inj_on_of_nodup_map m.nodup h h' rfl)).2

def popFront (m : DequeMap K V) : Option ((K × V) × DequeMap K V) :=
  match m with
  | ⟨[], _⟩ => none
  | ⟨e :: entries, nodup⟩ => some (e, ⟨entries, (List.nodup_cons.1 nodup).2⟩)

theorem popFront_eq_some {m' : DequeMap K V} (h : m.popFront = some (e, m')) : m.entries = e :: m'.entries := by
  obtain ⟨entries, nodup⟩ := m
  cases entries with
  | nil => exact nomatch h
  | cons e' entries =>
    obtain ⟨rfl, rfl⟩ := Prod.mk.inj (Option.some.inj h)
    rfl

variable [DecidableEq K]

def remove (m : DequeMap K V) (k : K) : DequeMap K V :=
  ⟨m.entries.filter fun e => e.1 ≠ k, m.nodup.sublist (List.filter_sublist.map Prod.fst)⟩

theorem mem_remove : e ∈ (m.remove k).entries ↔ e ∈ m.entries ∧ e.1 ≠ k := by
  simp [remove]

theorem keys_remove_sublist (m : DequeMap K V) (k : K) : (m.remove k).keys.Sublist m.keys :=
  filter_sublist.map Prod.fst

theorem keys_remove (m : DequeMap K V) (k : K) : (m.remove k).keys = m.keys.erase k := by
  have hnodup : m.keys.Nodup := m.nodup
  rw [hnodup.erase_eq_filter]
  unfold keys remove
  rw [filter_map]
  exact congrArg _ (filter_congr fun e _ => by grind)

theorem notMem_keys_remove (m : DequeMap K V) (k : K) : k ∉ (m.remove k).keys := by
  rw [mem_keys]
  rintro ⟨v, hv⟩
  exact (mem_remove.1 hv).2 rfl

private theorem keys_mapAt (l : List (K × V)) (k : K) (f : V → V) :
    (l.map fun e => if e.1 = k then (e.1, f e.2) else e).map Prod.fst = l.map Prod.fst := by
  rw [map_map]
  refine map_congr_left fun e _ => ?_
  rw [Function.comp_apply]
  split_ifs <;> rfl

def modify (m : DequeMap K V) (k : K) (f : V → V) : DequeMap K V :=
  ⟨m.entries.map fun e => if e.1 = k then (e.1, f e.2) else e, by
    rw [keys_mapAt]
    exact m.nodup⟩

theorem keys_modify (m : DequeMap K V) (k : K) (f : V → V) : (m.modify k f).keys = m.keys :=
  keys_mapAt m.entries k f

theorem mem_modify {f : V → V} : e ∈ (m.modify k f).entries ↔
      e ∈ m.entries ∧ e.1 ≠ k ∨ ∃ v, (k, v) ∈ m.entries ∧ e = (k, f v) := by
  constructor
  · intro h
    obtain ⟨e', he', rfl⟩ := mem_map.1 h
    split_ifs with hk
    · exact .inr ⟨e'.2, hk ▸ he', by rw [hk]⟩
    · exact .inl ⟨he', hk⟩
  · rintro (⟨he, hk⟩ | ⟨v, hv, rfl⟩)
    · exact mem_map.2 ⟨e, he, if_neg hk⟩
    · exact mem_map.2 ⟨(k, v), hv, if_pos rfl⟩

theorem entries_modify {pre post : List (K × V)} {v : V} (h : m.entries = pre ++ (k, v) :: post) (f : V → V) :
    (m.modify k f).entries = pre ++ (k, f v) :: post := by
  have hnodup := m.nodup
  rw [h, map_append, map_cons, nodup_middle, nodup_cons, mem_append] at hnodup
  have hother {l : List (K × V)} (hl : k ∉ l.map Prod.fst) :
      l.map (fun e => if e.1 = k then (e.1, f e.2) else e) = l :=
    (map_congr_left fun e he =>
      if_neg fun hk => hl (mem_map.2 ⟨e, he, hk⟩)).trans (map_id' l)
  obtain ⟨hpre, hpost⟩ := not_or.1 hnodup.1
  unfold modify
  dsimp only
  rw [h, map_append, map_cons, hother hpre, hother hpost, if_pos rfl]

def behind (m : DequeMap K V) (k : K) : List (K × V) := (m.entries.dropWhile fun e => e.1 ≠ k).tail

theorem exists_behind (hk : k ∈ m.keys) : ∃ pre v, m.entries = pre ++ (k, v) :: m.behind k := by
  obtain ⟨v, hv⟩ := mem_keys.1 hk
  have hsplit := takeWhile_append_dropWhile (p := fun e : K × V => decide (e.1 ≠ k))
    (l := m.entries)
  have hfirst := head?_dropWhile_not (fun e : K × V => decide (e.1 ≠ k)) m.entries
  unfold behind
  cases hdrop : m.entries.dropWhile fun e => e.1 ≠ k with
  | nil =>
    have hall := dropWhile_eq_nil_iff.1 hdrop (k, v) hv
    exact absurd rfl (of_decide_eq_true hall)
  | cons e post =>
    obtain ⟨k', v'⟩ := e
    rw [hdrop] at hsplit hfirst
    obtain rfl : k' = k := not_not.1 (of_decide_eq_false hfirst)
    exact ⟨_, v', hsplit.symm⟩

def insert (m : DequeMap K V) (keepsPlace : Bool) (k : K) (v : V) : DequeMap K V :=
  if keepsPlace ∧ k ∈ m.keys then m.modify k fun _ => v
  else
    ⟨(m.remove k).entries ++ [(k, v)], by
      rw [List.map_append]
      exact (m.remove k).nodup.append (List.nodup_singleton k)
        (List.disjoint_singleton.2 (m.notMem_keys_remove k))⟩

theorem mem_insert {keepsPlace : Bool} {v : V} :
    e ∈ (m.insert keepsPlace k v).entries ↔ e ∈ m.entries ∧ e.1 ≠ k ∨ e = (k, v) := by
  unfold insert
  split_ifs with h
  · obtain ⟨w, hw⟩ := mem_keys.1 h.2
    rw [mem_modify]
    exact or_congr_right ⟨fun ⟨_, _, he⟩ => he, fun he => ⟨w, hw, he⟩⟩
  · rw [mem_append, mem_remove, mem_singleton]

theorem entries_insert_perm (m : DequeMap K V) (keepsPlace : Bool) (k : K) (v : V) :
    (m.insert keepsPlace k v).entries.Perm ((m.remove k).entries ++ [(k, v)]) := by
  unfold insert
  split_ifs with h
  · obtain ⟨w, hw⟩ := mem_keys.1 h.2
    obtain ⟨pre, post, hentries⟩ := append_of_mem hw
    have hnodup := m.nodup
    rw [hentries, map_append, map_cons, nodup_middle, nodup_cons,
      mem_append] at hnodup
    have hfilter {l : List (K × V)} (hl : k ∉ l.map Prod.fst) : l.filter (fun e => e.1 ≠ k) = l :=
      filter_eq_self.2 fun e he => decide_eq_true fun hk => hl (mem_map.2 ⟨e, he, hk⟩)
    obtain ⟨hpre, hpost⟩ := not_or.1 hnodup.1
    rw [entries_modify hentries]
    change (pre ++ (k, v) :: post).Perm (m.entries.filter (fun e => e.1 ≠ k) ++ [(k, v)])
    rw [hentries, filter_append, filter_cons_of_neg (by simp), hfilter hpre, hfilter hpost]
    exact perm_middle.trans (perm_append_singleton _ _).symm
  · exact List.Perm.refl _

theorem keys_insert (hk : k ∉ m.keys) (keepsPlace : Bool) (v : V) :
    (m.insert keepsPlace k v).keys = m.keys ++ [k] := by
  have hremove : (m.remove k).entries = m.entries :=
    filter_eq_self.2 fun e he => decide_eq_true fun hek => hk (hek ▸ mem_keys_of_mem he)
  unfold insert
  rw [if_neg fun h => hk h.2]
  change ((m.remove k).entries ++ [(k, v)]).map Prod.fst = _
  rw [hremove, map_append]
  rfl

theorem length_insert (m : DequeMap K V) (keepsPlace : Bool) (k : K) (v : V) :
    (m.insert keepsPlace k v).entries.length =
      if k ∈ m.keys then m.entries.length else m.entries.length + 1 := by
  have hkeys (m : DequeMap K V) : m.keys.length = m.entries.length := length_map _
  split_ifs with hk
  · have hpos := length_pos_of_mem hk
    rw [(m.entries_insert_perm keepsPlace k v).length_eq, length_append, ← hkeys,
      keys_remove, length_erase_of_mem hk, length_singleton, Nat.sub_add_cancel hpos, hkeys]
  · rw [← hkeys, keys_insert hk, length_append, hkeys, length_singleton]

/-! ### Entries in an order -/

section Ordered

variable {R : V → V → Prop} {m : DequeMap K V} {k : K}

/-- The values stand in the order of `R`. -/
def Ordered (m : DequeMap K V) (R : V → V → Prop) : Prop := m.entries.Pairwise fun a b => R a.2 b.2

theorem Ordered.remove (h : m.Ordered R) (k : K) : (m.remove k).Ordered R := h.filter _

/-- A value is replaced by one that may stand behind all others, if it may stand before those behind
it. -/
theorem Ordered.modify (h : m.Ordered R) {f : V → V}
    (hlast : ∀ e ∈ m.entries, ∀ v, (k, v) ∈ m.entries → R e.2 (f v))
    (hbehind : ∀ e ∈ m.behind k, ∀ v, (k, v) ∈ m.entries → R (f v) e.2) :
    (m.modify k f).Ordered R := by
  by_cases hk : k ∈ m.keys
  · obtain ⟨pre, v, hentries⟩ := exists_behind hk
    have hmem : (k, v) ∈ m.entries := hentries ▸ mem_append_right _ mem_cons_self
    unfold Ordered at h ⊢
    rw [hentries, pairwise_append, pairwise_cons] at h
    obtain ⟨hpre, ⟨-, hpost⟩, hcross⟩ := h
    rw [entries_modify hentries, pairwise_append, pairwise_cons]
    refine ⟨hpre, ⟨fun e he => hbehind e he v hmem, hpost⟩, fun e he e' he' => ?_⟩
    rcases mem_cons.1 he' with rfl | he'
    · exact hlast e (hentries ▸ mem_append_left _ he) v hmem
    · exact hcross e he e' (mem_cons_of_mem _ he')
  · have hsame : (m.modify k f).entries = m.entries :=
      (map_congr_left fun e he => if_neg fun heq : e.1 = k => hk (heq ▸ mem_keys_of_mem he)).trans
        (map_id' _)
    unfold Ordered
    rw [hsame]
    exact h

theorem Ordered.insert (h : m.Ordered R) {keepsPlace : Bool} {v : V} (hlast : ∀ e ∈ m.entries, R e.2 v)
    (hbehind : keepsPlace = true → ∀ e ∈ m.behind k, R v e.2) :
    (m.insert keepsPlace k v).Ordered R := by
  unfold DequeMap.insert
  split_ifs with hkeeps
  · exact h.modify (fun e he _ _ => hlast e he) fun e he _ _ => hbehind hkeeps.1 e he
  · refine pairwise_append.2 ⟨h.remove k, pairwise_singleton _ _, fun e he e' he' => ?_⟩
    rw [mem_singleton.1 he']
    exact hlast e (mem_remove.1 he).1

end Ordered

end DequeMap

end FerroMq.Lib
