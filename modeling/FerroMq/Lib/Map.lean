import Mathlib

/-!
# Finite maps

`Map K V` is `Finmap` at a constant family: a hash map without its order.  The lemmas say what the
writers do to `lookup` and to `keys`, and how a sum over the keys changes with one entry.
-/

namespace FerroMq.Lib

open List

abbrev Map (K V : Type) := Finmap fun _ : K => V

namespace Map

variable {K V : Type} [DecidableEq K]

theorem lookup_insert' (m : Map K V) (k k' : K) (v : V) :
    (m.insert k v).lookup k' = if k' = k then some v else m.lookup k' := by
  split_ifs with h
  · subst h
    exact Finmap.lookup_insert m
  · exact Finmap.lookup_insert_of_ne m h

theorem lookup_erase' (m : Map K V) (k k' : K) :
    (m.erase k).lookup k' = if k' = k then none else m.lookup k' := by
  split_ifs with h
  · subst h
    exact Finmap.lookup_erase k' m
  · exact Finmap.lookup_erase_ne h

variable {m : Map K V} {k : K} {ks : List K}

theorem lookup_insert_eq_some_iff {k' : K} {v v' : V} :
    (m.insert k v).lookup k' = some v' ↔ k' = k ∧ v' = v ∨ k' ≠ k ∧ m.lookup k' = some v' := by
  rw [lookup_insert']
  split_ifs with h
  · simp [h, eq_comm]
  · simp [h]

theorem lookup_erase_eq_some_iff {k' : K} {v : V} :
    (m.erase k).lookup k' = some v ↔ k' ≠ k ∧ m.lookup k' = some v := by
  rw [lookup_erase']
  split_ifs with h
  · simp [h]
  · simp [h]

theorem keys_insert (m : Map K V) (k : K) (v : V) : (m.insert k v).keys = insert k m.keys := by
  ext a
  rw [Finmap.mem_keys, Finmap.mem_insert, Finset.mem_insert, Finmap.mem_keys]

theorem keys_eq_empty_iff : m.keys = ∅ ↔ m = ∅ := by
  refine ⟨fun h => Finmap.ext_lookup fun k => ?_, fun h => by rw [h, Finmap.keys_empty]⟩
  have hk : k ∉ m := fun hmem => by
    rw [← Finmap.mem_keys, h] at hmem
    exact Finset.notMem_empty k hmem
  rw [Finmap.lookup_eq_none.2 hk, Finmap.lookup_empty]

theorem eq_empty_of_lookup (h : ∀ k, m.lookup k = none) : m = ∅ :=
  Finmap.ext_lookup fun k => by rw [h k, Finmap.lookup_empty]

def isEmpty (m : Map K V) : Bool := decide (m.keys = ∅)

theorem isEmpty_iff : isEmpty m = true ↔ m = ∅ :=
  decide_eq_true_iff.trans keys_eq_empty_iff

theorem exists_lookup_of_ne_empty (h : m ≠ ∅) : ∃ k v, m.lookup k = some v := by
  obtain ⟨k, hk⟩ : m.keys.Nonempty := Finset.nonempty_iff_ne_empty.2 fun h' => h (keys_eq_empty_iff.1 h')
  obtain ⟨v, hv⟩ := Finmap.mem_iff.1 (Finmap.mem_keys.1 hk)
  exact ⟨k, v, hv⟩

/-! ## Sums over the entries -/

def sum (m : Map K V) (w : V → ℕ) : ℕ := ∑ k ∈ m.keys, ((m.lookup k).map w).getD 0

theorem sum_eq_add_erase (m : Map K V) (w : V → ℕ) (k : K) :
    sum m w = ((m.lookup k).map w).getD 0 + sum (m.erase k) w := by
  have herase : sum (m.erase k) w = ∑ a ∈ m.keys.erase k, ((m.lookup a).map w).getD 0 := by
    unfold sum
    rw [Finmap.keys_erase]
    refine Finset.sum_congr rfl fun a ha => ?_
    rw [Finmap.lookup_erase_ne (Finset.ne_of_mem_erase ha)]
  rw [herase]
  by_cases hk : k ∈ m.keys
  · exact (Finset.add_sum_erase _ _ hk).symm
  · have hnone : m.lookup k = none := Finmap.lookup_eq_none.2 fun h => hk (Finmap.mem_keys.2 h)
    rw [Finset.erase_eq_of_notMem hk, hnone]
    exact (Nat.zero_add _).symm

theorem erase_insert (m : Map K V) (k : K) (v : V) : (m.insert k v).erase k = m.erase k := by
  refine Finmap.ext_lookup fun a => ?_
  rw [lookup_erase', lookup_erase', lookup_insert']
  split_ifs <;> rfl

theorem sum_insert (m : Map K V) (w : V → ℕ) (k : K) (v : V) :
    sum (m.insert k v) w = w v + sum (m.erase k) w := by
  rw [sum_eq_add_erase _ w k, Finmap.lookup_insert, erase_insert]
  rfl

theorem card_keys (m : Map K V) : m.keys.card = sum m fun _ => 1 := by
  rw [Finset.card_eq_sum_ones]
  refine Finset.sum_congr rfl fun k hk => ?_
  obtain ⟨v, hv⟩ := Finmap.mem_iff.1 (Finmap.mem_keys.1 hk)
  rw [hv]
  rfl

theorem card_keys_insert (m : Map K V) (k : K) (v : V) :
    (m.insert k v).keys.card = m.keys.card + if (m.lookup k).isNone then 1 else 0 := by
  rw [card_keys, card_keys, sum_insert, sum_eq_add_erase m _ k]
  cases m.lookup k with
  | none => simp [Nat.add_comm]
  | some _ => simp

theorem card_keys_erase {v : V} (h : m.lookup k = some v) : (m.erase k).keys.card + 1 = m.keys.card := by
  rw [card_keys, card_keys, sum_eq_add_erase m _ k, h, Nat.add_comm]
  rfl

/-- The number of pairs in a map of maps depends only on which pairs there are, if no inner map is
empty. -/
theorem sum_card_congr {L : Type} [DecidableEq L] {m m' : Map K (Map L V)}
    (hm : ∀ k l, m.lookup k = some l → l ≠ ∅) (hm' : ∀ k l, m'.lookup k = some l → l ≠ ∅)
    (h : ∀ k l, ((m.lookup k).bind fun n => n.lookup l).isSome =
      ((m'.lookup k).bind fun n => n.lookup l).isSome) :
    sum m (fun n => n.keys.card) = sum m' fun n => n.keys.card := by
  have hsub {a b : Map K (Map L V)} (ha : ∀ k l, a.lookup k = some l → l ≠ ∅)
      (hab : ∀ k l, ((a.lookup k).bind fun n => n.lookup l).isSome =
        ((b.lookup k).bind fun n => n.lookup l).isSome) : a.keys ⊆ b.keys := by
    intro k hk
    obtain ⟨n, hn⟩ := Finmap.mem_iff.1 (Finmap.mem_keys.1 hk)
    obtain ⟨l, v, hv⟩ := exists_lookup_of_ne_empty (ha k n hn)
    have hkl := hab k l
    rw [hn, Option.bind_some, hv, Option.isSome_some] at hkl
    rw [Finmap.mem_keys, ← Finmap.lookup_isSome]
    exact Option.isSome_of_isSome_bind hkl.symm
  have hkeys : m.keys = m'.keys := (hsub hm h).antisymm (hsub hm' fun k l => (h k l).symm)
  unfold sum
  rw [← hkeys]
  refine Finset.sum_congr rfl fun k hk => ?_
  obtain ⟨n, hn⟩ := Finmap.mem_iff.1 (Finmap.mem_keys.1 hk)
  obtain ⟨n', hn'⟩ := Finmap.mem_iff.1 (Finmap.mem_keys.1 (hkeys ▸ hk))
  rw [hn, hn']
  refine congrArg Finset.card (Finset.ext fun l => ?_)
  have hkl := h k l
  rw [hn, hn', Option.bind_some, Option.bind_some] at hkl
  rw [Finmap.mem_keys, Finmap.mem_keys, ← Finmap.lookup_isSome, ← Finmap.lookup_isSome, hkl]

/-! ## Filling a map from its entries -/

def insertAll (m : Map K V) (l : List (Σ _ : K, V)) : Map K V :=
  l.foldl (fun m e => m.insert e.1 e.2) m

theorem lookup_insertAll {l : List (Σ _ : K, V)} (hl : l.NodupKeys) (m : Map K V) (k : K) :
    (insertAll m l).lookup k = (l.dlookup k).or (m.lookup k) := by
  induction l generalizing m with
  | nil => rfl
  | cons e l ih =>
    obtain ⟨k', v⟩ := e
    rw [nodupKeys_cons] at hl
    change (insertAll (m.insert k' v) l).lookup k = _
    rw [ih hl.2, lookup_insert']
    split_ifs with h
    · subst h
      rw [dlookup_cons_eq, dlookup_eq_none.2 hl.1]
      rfl
    · rw [dlookup_cons_ne l (⟨k', v⟩ : Σ _ : K, V) h]

theorem insertAll_entries {l : List (Σ _ : K, V)}
    (hl : (l : Multiset (Σ _ : K, V)) = m.entries) : insertAll ∅ l = m := by
  have hnodup : l.NodupKeys := by
    rw [← Multiset.coe_nodupKeys, hl]
    exact m.nodupKeys
  obtain rfl : m = AList.toFinmap ⟨l, hnodup⟩ := Finmap.ext hl.symm
  refine Finmap.ext_lookup fun k => ?_
  rw [lookup_insertAll hnodup, Finmap.lookup_empty, Option.or_none]
  rfl

/-! ## Lists under keys -/

/-! ## Batches -/

def eraseAll (m : Map K V) (ks : List K) : Map K V := ks.foldl (fun m k => m.erase k) m

theorem lookup_eraseAll_of_notMem (h : k ∉ ks) : (eraseAll m ks).lookup k = m.lookup k := by
  induction ks generalizing m with
  | nil => rfl
  | cons k' ks ih =>
    rw [mem_cons, not_or] at h
    rw [eraseAll, foldl_cons, ← eraseAll, ih h.2, lookup_erase', if_neg h.1]

theorem lookup_eraseAll_of_mem (h : k ∈ ks) : (eraseAll m ks).lookup k = none := by
  induction ks generalizing m with
  | nil => exact nomatch h
  | cons k' ks ih =>
    rw [eraseAll, foldl_cons, ← eraseAll]
    by_cases hk : k ∈ ks
    · exact ih hk
    · obtain rfl := (mem_cons.1 h).resolve_right hk
      rw [lookup_eraseAll_of_notMem hk, lookup_erase', if_pos rfl]

theorem lookup_eraseAll_eq_some_iff {v : V} :
    (eraseAll m ks).lookup k = some v ↔ k ∉ ks ∧ m.lookup k = some v := by
  by_cases h : k ∈ ks
  · simp [lookup_eraseAll_of_mem h, h]
  · rw [lookup_eraseAll_of_notMem h, and_iff_right h]

theorem eraseAll_append (m : Map K V) (ks ks' : List K) :
    eraseAll m (ks ++ ks') = eraseAll (eraseAll m ks) ks' :=
  foldl_append

theorem eraseAll_congr (m : Map K V) {ks' : List K} (h : ∀ k, k ∈ ks ↔ k ∈ ks') :
    eraseAll m ks = eraseAll m ks' :=
  Finmap.ext_lookup fun k => by
    by_cases hk : k ∈ ks
    · rw [lookup_eraseAll_of_mem hk, lookup_eraseAll_of_mem ((h k).1 hk)]
    · rw [lookup_eraseAll_of_notMem hk, lookup_eraseAll_of_notMem fun hk' => hk ((h k).2 hk')]

def putAll (m : Map K V) (es : List (K × V)) : Map K V := es.foldl (fun m e => m.insert e.1 e.2) m

section Push

variable {A : Type}

def push (m : Map K (List A)) (k : K) (a : A) : Map K (List A) :=
  m.insert k ((m.lookup k).getD [] ++ [a])

def pushAll (l : List (K × A)) : Map K (List A) := l.foldl (fun m e => push m e.1 e.2) ∅

theorem lookup_pushAll (l : List (K × A)) (k : K) :
    (pushAll l).lookup k = if (l.filter fun e => e.1 = k) = [] then none
      else some ((l.filter fun e => e.1 = k).map Prod.snd) := by
  induction l using List.reverseRecOn with
  | nil => rfl
  | append_singleton l e ih =>
    have hpush : pushAll (l ++ [e]) = push (pushAll l) e.1 e.2 := foldl_append
    rw [hpush, push, lookup_insert', filter_append]
    by_cases hk : k = e.1
    · subst hk
      have hmem : [e].filter (fun e' => e'.1 = e.1) = [e] := by simp
      have hne : (l.filter fun e' => e'.1 = e.1) ++ [e] ≠ [] := by simp
      rw [if_pos rfl, ih, hmem, if_neg hne, map_append]
      split_ifs with hnil
      · rw [hnil]
        rfl
      · rfl
    · have hnot : [e].filter (fun e' => e'.1 = k) = [] := by simp [Ne.symm hk]
      rw [if_neg hk, ih, hnot, append_nil]

theorem lookup_pushAll_eq_some {l : List (K × A)} {k : K} {as : List A}
    (h : (pushAll l).lookup k = some as) : as ≠ [] ∧ ∀ a, a ∈ as ↔ (k, a) ∈ l := by
  rw [lookup_pushAll] at h
  split_ifs at h with hnil
  obtain rfl := Option.some.inj h
  refine ⟨fun hmap => hnil (map_eq_nil_iff.1 hmap), fun a => ?_⟩
  simp only [mem_map, mem_filter, decide_eq_true_eq]
  constructor
  · rintro ⟨e, ⟨he, rfl⟩, rfl⟩
    exact he
  · exact fun ha => ⟨(k, a), ⟨ha, rfl⟩, rfl⟩

theorem exists_lookup_pushAll {l : List (K × A)} {k : K} {a : A} (h : (k, a) ∈ l) :
    ∃ as, (pushAll l).lookup k = some as := by
  rw [lookup_pushAll, if_neg (ne_nil_of_mem (mem_filter.2 ⟨h, decide_eq_true rfl⟩))]
  exact ⟨_, rfl⟩

end Push

end Map

end FerroMq.Lib
