import FerroMq.Lib.Map

/-!
# Walking a map

A `Walk` is one order of the entries of a hash map; a loop over a map is a fold over `Walk.list`, for an
arbitrary walk.
-/

namespace FerroMq.Lib

open List

theorem filter_eq_singleton {α κ : Type} {l : List α} {key : α → κ} (h : (l.map key).Nodup)
    {p : α → Bool} {a : α} (ha : a ∈ l) (hp : p a = true)
    (hkey : ∀ b ∈ l, p b = true → key b = key a) : l.filter p = [a] := by
  refine perm_singleton.1 ((perm_ext_iff_of_nodup (h.of_map.filter p) (by simp)).2
    fun b => ?_)
  rw [mem_filter, mem_singleton]
  constructor
  · rintro ⟨hb, hpb⟩
    exact inj_on_of_nodup_map h hb ha (hkey b hb hpb)
  · rintro rfl
    exact ⟨ha, hp⟩

theorem countP_eq_one {α κ : Type} {l : List α} {key : α → κ} (h : (l.map key).Nodup) {p : α → Bool}
    {a : α} (ha : a ∈ l) (hp : p a = true) (hkey : ∀ b ∈ l, p b = true → key b = key a) :
    l.countP p = 1 := by
  rw [countP_eq_length_filter, filter_eq_singleton h ha hp hkey, length_singleton]

theorem eq_of_countP_le_one {α : Type} {l : List α} {p : α → Bool} (h : l.countP p ≤ 1) {a b : α}
    (ha : a ∈ l) (hb : b ∈ l) (hpa : p a = true) (hpb : p b = true) : a = b := by
  rw [countP_eq_length_filter] at h
  have ha' : a ∈ l.filter p := mem_filter.2 ⟨ha, hpa⟩
  have hb' : b ∈ l.filter p := mem_filter.2 ⟨hb, hpb⟩
  match l.filter p, h, ha', hb' with
  | [c], _, ha', hb' => rw [mem_singleton.1 ha', mem_singleton.1 hb']

theorem filter_flatMap_key {α β κ : Type} [DecidableEq κ] {l : List α} {key : α → κ}
    (h : (l.map key).Nodup) {φ : α → List β} {key' : β → κ} (hφ : ∀ a, ∀ b ∈ φ a, key' b = key a)
    {a : α} (ha : a ∈ l) : (l.flatMap φ).filter (fun b => key' b = key a) = φ a := by
  induction l with
  | nil => exact nomatch ha
  | cons a' l ih =>
    rw [map_cons, nodup_cons] at h
    rw [flatMap_cons, filter_append]
    rcases mem_cons.1 ha with rfl | ha
    · have hrest : (l.flatMap φ).filter (fun b => key' b = key a) = [] := by
        refine filter_eq_nil_iff.2 fun b hb hkey => h.1 ?_
        obtain ⟨a', ha', hb⟩ := mem_flatMap.1 hb
        rw [← of_decide_eq_true hkey, hφ a' b hb]
        exact mem_map_of_mem ha'
      rw [hrest, append_nil]
      exact filter_eq_self.2 fun b hb => decide_eq_true (hφ a b hb)
    · have hfirst : (φ a').filter (fun b => key' b = key a) = [] := by
        refine filter_eq_nil_iff.2 fun b hb hkey => h.1 ?_
        rw [← hφ a' b hb, of_decide_eq_true hkey]
        exact mem_map_of_mem ha
      rw [hfirst, nil_append, ih h.2 ha]

/-- An order for the entries of a map. -/
structure Walk (K V : Type) where
  list : Map K V → List (Σ _ : K, V)
  entries : ∀ m, (list m : Multiset (Σ _ : K, V)) = m.entries

namespace Walk

variable {K V W : Type}

theorem nodupKeys (w : Walk K V) (m : Map K V) : (w.list m).NodupKeys := by
  rw [← Multiset.coe_nodupKeys, w.entries]
  exact m.nodupKeys

def sorted [LinearOrder K] : Walk K V where
  list m := m.keys.sort.filterMap fun k => (m.lookup k).map (Sigma.mk k)
  entries m := by
    have hinj : ∀ (k k' : K) (e : Σ _ : K, V), e ∈ (m.lookup k).map (Sigma.mk k) →
        e ∈ (m.lookup k').map (Sigma.mk k') → k = k' := by
      rintro k k' e he he'
      obtain ⟨v, -, rfl⟩ := Option.mem_map.1 he
      obtain ⟨v', -, heq⟩ := Option.mem_map.1 he'
      exact (congrArg Sigma.fst heq).symm
    refine (Multiset.Nodup.ext (Multiset.coe_nodup.2 ?_) m.nodup_entries).2 fun ⟨k, v⟩ => ?_
    · exact (Finset.sort_nodup m.keys (· ≤ ·)).filterMap hinj
    · rw [← Finmap.mem_lookup_iff, Multiset.mem_coe, List.mem_filterMap]
      constructor
      · rintro ⟨k', -, he⟩
        obtain ⟨v', hv', heq⟩ := Option.map_eq_some_iff.1 he
        cases heq
        exact hv'
      · intro hv
        refine ⟨k, ?_, by rw [Option.mem_def.1 hv]; rfl⟩
        rw [Finset.mem_sort, Finmap.mem_keys]
        exact Finmap.mem_of_lookup_eq_some hv

variable [DecidableEq K]

theorem mem_list (w : Walk K V) {m : Map K V} {k : K} {v : V} :
    ⟨k, v⟩ ∈ w.list m ↔ m.lookup k = some v := by
  rw [← Multiset.mem_coe, w.entries, ← Finmap.mem_lookup_iff, Option.mem_def]

theorem dlookup_list (w : Walk K V) (m : Map K V) (k : K) :
    (w.list m).dlookup k = m.lookup k := by
  refine Option.ext fun v => ?_
  rw [← Option.mem_def, mem_dlookup_iff (w.nodupKeys m), w.mem_list]

theorem lookup_insertAll_map (w : Walk K V) (m : Map K V) (φ : K → V → W) (k : K) :
    (Map.insertAll ∅ ((w.list m).map fun e => ⟨e.1, φ e.1 e.2⟩)).lookup k =
      (m.lookup k).map (φ k) := by
  have hkeys : ((w.list m).map fun e => (⟨e.1, φ e.1 e.2⟩ : Σ _ : K, W)).NodupKeys := by
    rw [List.NodupKeys, List.keys, map_map]
    exact w.nodupKeys m
  rw [Map.lookup_insertAll hkeys, Finmap.lookup_empty, Option.or_none, ← w.dlookup_list m k]
  exact dlookup_map₂ k

end Walk

end FerroMq.Lib
