import FerroMq.Retain.Storage

/-!
# Retained messages of several nodes

`dedup_retains_by_topic` keeps one message for each topic: of those with the largest time of creation, the first
(`Wins`).  It does not matter whether it has been applied to parts of the list before (`dedup_append`).
-/

namespace FerroMq

open Lib List

def createdAt (e : String × Retain) : TimestampMillis := e.2.publish.createTime.getD 0

def noteLatest (retains : List (String × Retain)) (latestIdx : Lib.Map String ℕ) (x : (String × Retain) × ℕ) :
    Lib.Map String ℕ :=
  let keep := match latestIdx.lookup x.1.1 with
    | some existingIdx => decide (createdAt x.1 > (retains[existingIdx]?.map createdAt).getD 0)
    | none => true
  if keep then latestIdx.insert x.1.1 x.2 else latestIdx

/-- The indices are sorted, so that it does not matter in which order the map has them. -/
def dedupRetainsByTopic (retains : List (String × Retain)) : List (String × Retain) :=
  let latestIdx := retains.zipIdx.foldl (noteLatest retains) ∅
  ((latestIdx.entries.map Sigma.snd).sort (· ≤ ·)).filterMap (retains[·]?)

/-- No message of the list with the topic of `e` is later. -/
def Unsurpassed (l : List (String × Retain)) (e : String × Retain) : Prop :=
  ∀ x ∈ l, x.1 = e.1 → createdAt x ≤ createdAt e

/-- All messages of the list with the topic of `e` are earlier. -/
def Beats (l : List (String × Retain)) (e : String × Retain) : Prop :=
  ∀ x ∈ l, x.1 = e.1 → createdAt x < createdAt e

/-- The message at a position is the first of the latest with its topic. -/
def Wins (l : List (String × Retain)) (x : (String × Retain) × ℕ) : Prop :=
  l[x.2]? = some x.1 ∧ Beats (l.take x.2) x.1 ∧ Unsurpassed (l.drop x.2) x.1

section

variable {l l' : List (String × Retain)} {e x : String × Retain} {i j : ℕ}

instance : DecidablePred (Unsurpassed l) := fun _ => List.decidableBAll _ _

instance : DecidablePred (Beats l) := fun _ => List.decidableBAll _ _

instance : DecidablePred (Wins l) := fun _ => inferInstanceAs (Decidable (_ ∧ _ ∧ _))

theorem unsurpassed_append : Unsurpassed (l ++ l') e ↔ Unsurpassed l e ∧ Unsurpassed l' e := forall_mem_append

theorem beats_append : Beats (l ++ l') e ↔ Beats l e ∧ Beats l' e := forall_mem_append

theorem wins_append_left (hi : i < l.length) : Wins (l ++ l') (e, i) ↔ Wins l (e, i) ∧ Unsurpassed l' e := by
  simp only [Wins, getElem?_append_left hi, take_append_of_le_length hi.le,
    drop_append_of_le_length hi.le, unsurpassed_append, and_assoc]

theorem wins_append_right : Wins (l ++ l') (e, i + l.length) ↔ Wins l' (e, i) ∧ Beats l e := by
  simp only [Wins, getElem?_append_right (Nat.le_add_left _ _), Nat.add_sub_cancel, beats_append,
    take_append, drop_append, take_of_length_le (Nat.le_add_left _ i),
    drop_of_length_le (Nat.le_add_left _ i), nil_append]
  tauto

theorem Wins.unsurpassed (h : Wins l (e, i)) : Unsurpassed l e := by
  intro x hx htopic
  rw [← take_append_drop i l, mem_append] at hx
  rcases hx with hx | hx
  · exact (h.2.1 x hx htopic).le
  · exact h.2.2 x hx htopic

theorem Wins.le (h : Wins l (e, i)) (h' : Wins l (x, j)) (htopic : e.1 = x.1) : i ≤ j := by
  by_contra hlt
  have hmem : x ∈ l.take i := mem_of_getElem? (i := j) (by rw [getElem?_take_of_lt (by omega), h'.1])
  exact absurd (h.2.1 x hmem htopic.symm) (h'.unsurpassed e (mem_of_getElem? h.1) htopic).not_gt

/-! ## The loop -/

/-- The map has the index of the winner for each topic of the messages so far. -/
structure Latest (l : List (String × Retain)) (m : Lib.Map String ℕ) : Prop where
  wins : ∀ t i, m.lookup t = some i → ∃ e, e.1 = t ∧ Wins l (e, i)
  found : ∀ e ∈ l, m.lookup e.1 ≠ none

variable {m : Lib.Map String ℕ}

theorem Latest.note (h : Latest l m) (e : String × Retain) (rest : List (String × Retain)) :
    Latest (l ++ [e]) (noteLatest (l ++ e :: rest) m (e, l.length)) := by
  have hstays : ∀ x i, Wins l (x, i) → (x.1 = e.1 → createdAt e ≤ createdAt x) → Wins (l ++ [e]) (x, i) :=
    fun x i hwins hle => (wins_append_left (List.getElem?_eq_some_iff.1 hwins.1).1).2
      ⟨hwins, forall_mem_singleton.2 fun htopic => hle htopic.symm⟩
  have hnew : Beats l e → Latest (l ++ [e]) (m.insert e.1 l.length) := by
    intro hbeats
    have hwins : Wins (l ++ [e]) (e, 0 + l.length) := wins_append_right.2 ⟨by simp [Wins, Beats, Unsurpassed], hbeats⟩
    refine ⟨fun t i hi => ?_, fun x hx => ?_⟩
    · rcases Map.lookup_insert_eq_some_iff.1 hi with ⟨rfl, rfl⟩ | ⟨hne, hi⟩
      · exact ⟨e, rfl, by rwa [zero_add] at hwins⟩
      · obtain ⟨x, rfl, hx⟩ := h.wins t i hi
        exact ⟨x, rfl, hstays x i hx fun heq => absurd heq hne⟩
    · rw [Map.lookup_insert']
      split_ifs with ht
      · exact Option.some_ne_none _
      · exact h.found x ((mem_append.1 hx).resolve_right fun hx => ht (by rw [mem_singleton.1 hx]))
  rw [noteLatest]
  dsimp only
  rcases hm : m.lookup e.1 with _ | i
  · exact hnew fun x hx htopic => absurd (htopic ▸ hm) (h.found x hx)
  · obtain ⟨x, htopic, hx⟩ := h.wins _ i hm
    have hget : (l ++ e :: rest)[i]? = some x := by
      rw [List.getElem?_append_left (List.getElem?_eq_some_iff.1 hx.1).1, hx.1]
    simp only [hget, Option.map_some, Option.getD_some, decide_eq_true_eq]
    split_ifs with hlt
    · exact hnew fun y hy hy' => (hx.unsurpassed y hy (hy'.trans htopic.symm)).trans_lt hlt
    · refine ⟨fun t j hj => ?_, fun y hy => ?_⟩
      · obtain ⟨y, rfl, hy⟩ := h.wins t j hj
        refine ⟨y, rfl, hstays y j hy fun heq => ?_⟩
        exact (not_lt.1 hlt).trans (hy.unsurpassed x (mem_of_getElem? hx.1) (htopic.trans heq.symm))
      · rcases mem_append.1 hy with hy | hy
        · exact h.found y hy
        · rw [mem_singleton.1 hy, hm]
          exact Option.some_ne_none _

theorem latest_foldl (l rest : List (String × Retain)) (h : Latest l m) :
    Latest (l ++ rest) ((rest.zipIdx l.length).foldl (noteLatest (l ++ rest)) m) := by
  induction rest generalizing l m with
  | nil => simpa using h
  | cons e rest ih =>
    have hnext := ih (l ++ [e]) (h.note e rest)
    rw [append_assoc, singleton_append, length_append, length_singleton] at hnext
    exact hnext

theorem latest_run (l : List (String × Retain)) : Latest l (l.zipIdx.foldl (noteLatest l) ∅) :=
  latest_foldl [] l ⟨fun t i h => by simp at h, fun _ h => nomatch h⟩

theorem mem_winners : (e, i) ∈ l.zipIdx.filter (fun x => Wins l x) ↔ Wins l (e, i) := by
  rw [mem_filter, decide_eq_true_iff, mem_zipIdx_iff_getElem?]
  exact and_iff_right_of_imp And.left

theorem Latest.mem_values (h : Latest l m) : i ∈ m.entries.map Sigma.snd ↔ ∃ e, Wins l (e, i) := by
  rw [Multiset.mem_map]
  constructor
  · rintro ⟨⟨t, i⟩, hi, rfl⟩
    obtain ⟨e, -, hwins⟩ := h.wins t i (Finmap.mem_lookup_iff.2 hi)
    exact ⟨e, hwins⟩
  · rintro ⟨e, hwins⟩
    obtain ⟨j, hj⟩ := Option.ne_none_iff_exists'.1 (h.found e (mem_of_getElem? hwins.1))
    obtain ⟨x, htopic, hx⟩ := h.wins _ j hj
    obtain rfl : i = j := (hwins.le hx htopic.symm).antisymm (hx.le hwins htopic)
    exact ⟨⟨e.1, i⟩, Finmap.mem_lookup_iff.1 hj, rfl⟩

theorem Latest.nodup_values (h : Latest l m) : (m.entries.map Sigma.snd).Nodup := by
  refine Multiset.Nodup.map_on ?_ m.nodup_entries
  rintro ⟨t, i⟩ hi ⟨t', i'⟩ hi' heq
  obtain rfl : i = i' := heq
  obtain ⟨e, rfl, hwins⟩ := h.wins t i (Finmap.mem_lookup_iff.2 hi)
  obtain ⟨e', rfl, hwins'⟩ := h.wins t' i (Finmap.mem_lookup_iff.2 hi')
  obtain rfl : e = e' := Option.some.inj (hwins.1.symm.trans hwins'.1)
  rfl

/-- What is kept, by position. -/
theorem dedup_eq (l : List (String × Retain)) :
    dedupRetainsByTopic l = (l.zipIdx.filter fun x => Wins l x).map Prod.fst := by
  have hlatest := latest_run l
  rw [dedupRetainsByTopic]
  generalize l.zipIdx.foldl (noteLatest l) ∅ = m at hlatest
  have hsorted : ((l.zipIdx.filter fun x => Wins l x).map Prod.snd).Pairwise (· < ·) := by
    refine List.Pairwise.sublist (filter_sublist.map Prod.snd) ?_
    rw [zipIdx_map_snd]
    exact pairwise_lt_range'
  have hvalues : (m.entries.map Sigma.snd).sort (· ≤ ·) = (l.zipIdx.filter fun x => Wins l x).map Prod.snd := by
    refine List.Perm.eq_of_pairwise' (Multiset.pairwise_sort _ _) (hsorted.imp le_of_lt) (Multiset.coe_eq_coe.1 ?_)
    rw [Multiset.sort_eq]
    refine (Multiset.Nodup.ext hlatest.nodup_values (Multiset.coe_nodup.2 hsorted.nodup)).2 fun i => ?_
    rw [hlatest.mem_values, Multiset.mem_coe, mem_map]
    constructor
    · rintro ⟨e, hwins⟩
      exact ⟨(e, i), mem_winners.2 hwins, rfl⟩
    · rintro ⟨⟨e, i⟩, hmem, rfl⟩
      exact ⟨e, mem_winners.1 hmem⟩
  rw [hvalues, filterMap_map, ← filterMap_eq_map]
  exact filterMap_congr fun x hx => (mem_winners.1 hx).1

theorem mem_dedup : e ∈ dedupRetainsByTopic l ↔ ∃ i, Wins l (e, i) := by
  rw [dedup_eq, mem_map]
  constructor
  · rintro ⟨⟨e, i⟩, hmem, rfl⟩
    exact ⟨i, mem_winners.1 hmem⟩
  · rintro ⟨i, hwins⟩
    exact ⟨(e, i), mem_winners.2 hwins, rfl⟩

end

/-! ## Lists one behind the other -/

theorem dedup_append (l l' : List (String × Retain)) : dedupRetainsByTopic (l ++ l') =
    (dedupRetainsByTopic l).filter (fun e => Unsurpassed l' e) ++
      (dedupRetainsByTopic l').filter fun e => Beats l e := by
  rw [dedup_eq, dedup_eq, dedup_eq, zipIdx_append, zipIdx_eq_map_add (i := 0 + l.length), filter_append,
    map_append, filter_map, filter_map, filter_map, filter_filter, filter_filter,
    map_map]
  refine congrArg₂ (· ++ ·) (congrArg _ (filter_congr fun x hx => ?_)) (congrArg _ (filter_congr fun x hx => ?_))
  · have hlt := (List.getElem?_eq_some_iff.1 (List.mem_zipIdx_iff_getElem?.1 hx)).1
    simp only [Function.comp_apply, wins_append_left hlt, Bool.decide_and, Bool.and_comm]
  · simp only [Function.comp_apply, Nat.zero_add, Nat.add_comm l.length, wins_append_right, Bool.decide_and,
      Bool.and_comm]

section

variable {l : List (String × Retain)} {e x : String × Retain}

theorem nodup_topics (l : List (String × Retain)) : ((dedupRetainsByTopic l).map Prod.fst).Nodup := by
  rw [dedup_eq, map_map]
  refine List.Nodup.map_on ?_ ((nodup_zipIdx_map_snd l).of_map.filter _)
  rintro ⟨e, i⟩ hi ⟨x, j⟩ hj htopic
  rw [mem_winners] at hi hj
  obtain rfl := (hi.le hj htopic).antisymm (hj.le hi htopic.symm)
  exact congrArg (·, i) (Option.some.inj (hi.1.symm.trans hj.1))

theorem mem_of_mem_dedup (h : e ∈ dedupRetainsByTopic l) : e ∈ l :=
  mem_of_getElem? (mem_dedup.1 h).choose_spec.1

theorem exists_mem_dedup (h : x ∈ l) : ∃ e ∈ dedupRetainsByTopic l, e.1 = x.1 ∧ createdAt x ≤ createdAt e := by
  obtain ⟨i, hi⟩ := Option.ne_none_iff_exists'.1 ((latest_run l).found x h)
  obtain ⟨e, htopic, hwins⟩ := (latest_run l).wins _ i hi
  exact ⟨e, mem_dedup.2 ⟨i, hwins⟩, htopic, hwins.unsurpassed x h htopic.symm⟩

theorem forall_dedup {R : TimestampMillis → TimestampMillis → Prop} (hR : ∀ {a b c}, a ≤ b → R b c → R a c) :
    (∀ x ∈ dedupRetainsByTopic l, x.1 = e.1 → R (createdAt x) (createdAt e)) ↔
      ∀ x ∈ l, x.1 = e.1 → R (createdAt x) (createdAt e) := by
  refine ⟨fun h x hx htopic => ?_, fun h x hx => h x (mem_of_mem_dedup hx)⟩
  obtain ⟨y, hy, hyx, hle⟩ := exists_mem_dedup hx
  exact hR hle (h y hy (hyx.trans htopic))

theorem unsurpassed_dedup : Unsurpassed (dedupRetainsByTopic l) e ↔ Unsurpassed l e := forall_dedup le_trans

theorem beats_dedup : Beats (dedupRetainsByTopic l) e ↔ Beats l e := forall_dedup lt_of_le_of_lt

theorem dedup_of_nodup (h : (l.map Prod.fst).Nodup) : dedupRetainsByTopic l = l := by
  induction l with
  | nil => simp [dedup_eq]
  | cons e l ih =>
    rw [map_cons, nodup_cons] at h
    have hother : ∀ x ∈ l, x.1 ≠ e.1 := fun x hx heq => h.1 (heq ▸ mem_map_of_mem hx)
    have hfirst : dedupRetainsByTopic [e] = [e] := by
      simp [dedup_eq, Wins, Beats, Unsurpassed]
    have hkept : Unsurpassed l e := fun x hx htopic => absurd htopic (hother x hx)
    have hbeats : ∀ x ∈ l, Beats [e] x := fun x hx =>
      forall_mem_singleton.2 fun htopic => absurd htopic.symm (hother x hx)
    rw [← singleton_append, dedup_append, hfirst, ih h.2, filter_eq_self.2 (by simpa using hkept),
      filter_eq_self.2 (by simpa using hbeats)]

theorem dedup_flatten (ls : List (List (String × Retain))) :
    dedupRetainsByTopic (ls.map dedupRetainsByTopic).flatten = dedupRetainsByTopic ls.flatten := by
  induction ls with
  | nil => rfl
  | cons l ls ih =>
    have hrest : ∀ e, Unsurpassed (ls.map dedupRetainsByTopic).flatten e ↔ Unsurpassed ls.flatten e := fun e => by
      rw [← unsurpassed_dedup, ih, unsurpassed_dedup]
    simp only [map_cons, flatten_cons, dedup_append, dedup_of_nodup (nodup_topics l), ih, hrest, beats_dedup]

end

/-- One message for each topic is kept, in the order of the list: the first of the latest.  So nothing changes the
second time, and lists that are put together may have been gone through before. -/
theorem dedup_retains (l : List (String × Retain)) :
    (dedupRetainsByTopic l = (l.zipIdx.filter fun x => Wins l x).map Prod.fst ∧ (dedupRetainsByTopic l).Sublist l) ∧
      (((dedupRetainsByTopic l).map Prod.fst).Nodup ∧
        ∀ t, t ∈ (dedupRetainsByTopic l).map Prod.fst ↔ t ∈ l.map Prod.fst) ∧
      dedupRetainsByTopic (dedupRetainsByTopic l) = dedupRetainsByTopic l ∧
      ∀ ls : List (List (String × Retain)),
        dedupRetainsByTopic (ls.map dedupRetainsByTopic).flatten = dedupRetainsByTopic ls.flatten := by
  refine ⟨⟨dedup_eq l, ?_⟩, ⟨nodup_topics l, fun t => ?_⟩, dedup_of_nodup (nodup_topics l), dedup_flatten⟩
  · rw [dedup_eq]
    have hsub := (filter_sublist (l := l.zipIdx) (p := fun x => decide (Wins l x))).map Prod.fst
    rwa [zipIdx_map_fst] at hsub
  · constructor
    · intro ht
      obtain ⟨e, he, rfl⟩ := mem_map.1 ht
      exact mem_map_of_mem (mem_of_mem_dedup he)
    · intro ht
      obtain ⟨x, hx, rfl⟩ := mem_map.1 ht
      obtain ⟨e, he, htopic, -⟩ := exists_mem_dedup hx
      exact htopic ▸ mem_map_of_mem he

end FerroMq
