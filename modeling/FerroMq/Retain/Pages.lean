import FerroMq.Lib.Paging
import FerroMq.Retain.Storage
import FerroMq.Topic.Levels

/-!
# Copying the retained messages page by page

`get_all_paginated` collects with the filter `#`, which passes over topics that start with `$`, and below a
prefix with a stored topic `prefix/#` finds that one only.  The pages are complete exactly if no live message is
hidden so (`DefaultRetainStorage.copied_iff`).
-/

namespace FerroMq

open Lib List

universe u

namespace RetainTree

variable {V : Type u}

/-! ## What `#` reaches -/

/-- Below `p` a topic is stored whose next level is `#`. -/
def Shadowed (t : RetainTree V) (p : List Level) : Prop :=
  ∃ r, t.get (p ++ .multiWildcard :: r) ≠ none

/-- At no prefix of the topic the walk is drawn to a stored `#`. -/
def Seen (t : RetainTree V) (ks : List Level) : Prop :=
  ∀ p q, ks = p ++ q → q ≠ [] → Shadowed t p → q = [.multiWildcard]

section

variable {p : Level → Prop} {t c : RetainTree V} {k : Level} {ks : List Level}

theorem shadowed_nil_iff (hw : Trie.Wf p t) (hp : t.Pruned) :
    Shadowed t [] ↔ t.child .multiWildcard ≠ none := by
  constructor
  · rintro ⟨r, hr⟩ hnone
    rw [nil_append, Trie.get_cons, hnone] at hr
    exact hr rfl
  · intro hne
    obtain ⟨c, hc⟩ := Option.ne_none_iff_exists'.1 hne
    exact hp.exists_get hw hc

theorem shadowed_cons_iff (hc : t.child k = some c) (path : List Level) :
    Shadowed t (k :: path) ↔ Shadowed c path := by
  simp only [Shadowed, cons_append, Trie.get_cons, hc, Option.map_some, Option.getD_some]

theorem seen_singleton_hash : Seen t [.multiWildcard] := by
  intro p q heq hne _
  rcases append_eq_singleton_iff.1 heq.symm with ⟨-, hq⟩ | ⟨-, hq⟩
  · exact hq
  · exact absurd hq hne

theorem seen_cons_iff (hroot : ¬ Shadowed t []) (hc : t.child k = some c) :
    Seen t (k :: ks) ↔ Seen c ks := by
  constructor
  · intro h p q heq hne hs
    exact h (k :: p) q (by rw [heq, cons_append]) hne ((shadowed_cons_iff hc p).2 hs)
  · intro h p q heq hne hs
    cases p with
    | nil => exact absurd hs hroot
    | cons k' p =>
      obtain ⟨rfl, hrest⟩ := List.cons.inj heq
      exact h p q hrest hne ((shadowed_cons_iff hc p).1 hs)

end

/-- What the filter `#` finds from the node `t` on. -/
def Reached (t : RetainTree V) (sub : List Level) (topic : Topic) (v : V) : Prop :=
  ∃ k ks, IsStored t sub (k :: ks) topic v ∧ (sub = [] → k.isMetadata = false) ∧ Seen t (k :: ks)

variable {t : RetainTree V}

theorem mem_collect_hash {p : Level → Prop} (hw : Trie.Wf p t) (hp : t.Pruned)
    (sub : List Level) (topic : Topic) (v : V) :
    (topic, v) ∈ collect t [.multiWildcard] sub ↔ Reached t sub topic v := by
  induction t using Trie.branchInduction generalizing sub with
  | node t ih =>
    rcases hc : t.child .multiWildcard with _ | c
    · have hroot : ¬ Shadowed t [] := fun h => (shadowed_nil_iff hw hp).1 h hc
      rw [collect_multiWildcard hc, spread, mem_flatMap]
      constructor
      · rintro ⟨⟨k, c⟩, hb, hmem⟩
        have hchild := hw.child_eq_some hb
        rw [skips_eq] at hmem
        split_ifs at hmem with hskip
        · cases hmem
        have hfirst : sub = [] → k.isMetadata = false := by
          rintro rfl
          simpa using hskip
        rw [below, mem_append, addParent, head?_cons, if_pos rfl, mem_addToOut,
          ih _ hb (hw.branch hb) (hp.branch hb)] at hmem
        rcases hmem with ⟨htopic, hvalue⟩ | ⟨k', ks, hstored, -, hseen⟩
        · refine ⟨k, [], ⟨htopic, ?_⟩, hfirst, ?_⟩
          · rw [Trie.get_cons, hchild]
            exact (Trie.get_nil c).trans hvalue
          · exact (seen_cons_iff hroot hchild).2 fun p q heq hne =>
              absurd (append_eq_nil_iff.1 heq.symm).2 hne
        · exact ⟨k, k' :: ks, (isStored_cons_iff hchild).2 hstored, hfirst,
            (seen_cons_iff hroot hchild).2 hseen⟩
      · rintro ⟨k, ks, hstored, hfirst, hseen⟩
        rcases hchild : t.child k with _ | c
        · exact absurd hstored (not_isStored_of_child_none hchild)
        have hb := Trie.mem_branches_of_child hchild
        rw [isStored_cons_iff hchild] at hstored
        rw [seen_cons_iff hroot hchild] at hseen
        have hskip : ¬ skips sub k = true := by
          rw [skips_eq, Bool.and_eq_true, List.isEmpty_iff]
          rintro ⟨hsub, hmeta⟩
          rw [hfirst hsub] at hmeta
          cases hmeta
        refine ⟨(k, c), hb, ?_⟩
        rw [if_neg hskip, below, mem_append, addParent, head?_cons, if_pos rfl, mem_addToOut,
          ih _ hb (hw.branch hb) (hp.branch hb)]
        cases ks with
        | nil => exact .inl ⟨hstored.1.trans (by rw [append_nil]), (Trie.get_nil c).symm.trans hstored.2⟩
        | cons k' ks => exact .inr ⟨k', ks, hstored, by simp, hseen⟩
    · -- the stored `#` takes the walk away from its siblings
      have hshadow : Shadowed t [] := (shadowed_nil_iff hw hp).2 (by rw [hc]; rintro ⟨⟩)
      rw [collect_of_child hc, below, collect_nil, addParent, head?_nil, if_neg (fun h => by cases h),
        nil_append, mem_addToOut]
      constructor
      · rintro ⟨htopic, hvalue⟩
        refine ⟨.multiWildcard, [], ⟨htopic, ?_⟩, fun _ => rfl, seen_singleton_hash⟩
        rw [Trie.get_cons, hc]
        exact (Trie.get_nil c).trans hvalue
      · rintro ⟨k, ks, hstored, -, hseen⟩
        obtain ⟨rfl, rfl⟩ := List.cons.inj (hseen [] (k :: ks) rfl (cons_ne_nil _ _) hshadow)
        rw [isStored_cons_iff hc] at hstored
        exact ⟨hstored.1.trans (by rw [append_nil]), (Trie.get_nil c).symm.trans hstored.2⟩

section

variable {p : Level → Prop} {t : RetainTree V}

theorem below_hash (t : RetainTree V) (sub : List Level) :
    below t [.multiWildcard] sub = addToOut sub t.payload ++ collect t [.multiWildcard] sub := by
  rw [below, addParent, head?_cons, if_pos rfl]

variable {sub : List Level} {topic : Topic}

theorem fst_of_mem_collect_hash (hw : Trie.Wf p t) (hp : t.Pruned)
    (h : topic ∈ (collect t [.multiWildcard] sub).map Prod.fst) : ∃ k ks, topic = ⟨sub ++ k :: ks⟩ := by
  obtain ⟨⟨topic, v⟩, hmem, rfl⟩ := mem_map.1 h
  obtain ⟨k, ks, hstored, -⟩ := (mem_collect_hash hw hp sub topic v).1 hmem
  exact ⟨k, ks, hstored.1⟩

theorem fst_of_mem_below_hash (hw : Trie.Wf p t) (hp : t.Pruned)
    (h : topic ∈ (below t [.multiWildcard] sub).map Prod.fst) : ∃ ks, topic = ⟨sub ++ ks⟩ := by
  rw [below_hash, map_append, mem_append] at h
  rcases h with h | h
  · obtain ⟨⟨topic, v⟩, hmem, rfl⟩ := mem_map.1 h
    exact ⟨[], by rw [(mem_addToOut.1 hmem).1, append_nil]⟩
  · obtain ⟨k, ks, rfl⟩ := fst_of_mem_collect_hash hw hp h
    exact ⟨k :: ks, rfl⟩

theorem nodup_below_hash (hw : Trie.Wf p t) (hp : t.Pruned)
    (ih : ((collect t [.multiWildcard] sub).map Prod.fst).Nodup) :
    ((below t [.multiWildcard] sub).map Prod.fst).Nodup := by
  rw [below_hash, map_append, nodup_append]
  refine ⟨nodup_addToOut _ _, ih, fun topic hleft topic' hright heq => ?_⟩
  obtain ⟨⟨topic, v⟩, hmem, rfl⟩ := mem_map.1 hleft
  obtain ⟨k, ks, rfl⟩ := fst_of_mem_collect_hash hw hp hright
  rw [(mem_addToOut.1 hmem).1] at heq
  simpa using congrArg Topic.levels heq

theorem mem_of_not_skipped {q : Prop} [Decidable q] {l : List (Topic × V)}
    (h : topic ∈ (if q then [] else l).map Prod.fst) : topic ∈ l.map Prod.fst := by
  split_ifs at h
  · exact nomatch h
  · exact h

theorem nodup_collect_hash (hw : Trie.Wf p t) (hp : t.Pruned) (sub : List Level) :
    ((collect t [.multiWildcard] sub).map Prod.fst).Nodup := by
  induction t using Trie.branchInduction generalizing sub with
  | node t ih =>
    rcases hc : t.child .multiWildcard with _ | c
    · rw [collect_multiWildcard hc, spread, map_flatMap, nodup_flatMap]
      refine ⟨fun b hb => ?_, (pairwise_map.1 hw.nodup).imp_of_mem fun {b b'} hb hb' hne => ?_⟩
      · split_ifs
        · exact nodup_nil
        · exact nodup_below_hash (hw.branch hb) (hp.branch hb)
            (ih b hb (hw.branch hb) (hp.branch hb) (sub ++ [b.1]))
      · -- the topics of different branches differ behind `sub`
        intro topic hleft hright
        obtain ⟨ks, rfl⟩ := fst_of_mem_below_hash (hw.branch hb) (hp.branch hb) (mem_of_not_skipped hleft)
        obtain ⟨ks', heq⟩ :=
          fst_of_mem_below_hash (hw.branch hb') (hp.branch hb') (mem_of_not_skipped hright)
        have hlevels := congrArg Topic.levels heq
        rw [append_assoc, append_assoc, append_cancel_left_eq] at hlevels
        exact hne (List.cons.inj hlevels).1
    · rw [collect_of_child hc, below, collect_nil, addParent, head?_nil, if_neg (fun h => by cases h)]
      exact nodup_addToOut _ _

end

theorem Stocked.mem_matches_hash (h : Stocked t) (topic : Topic) (v : V) :
    (topic, v) ∈ t.matches ⟨[.multiWildcard]⟩ ↔
      t.get topic.levels = some v ∧ (∀ l, topic.levels.head? = some l → l.isMetadata = false) ∧
        ∀ q q', topic.levels = q ++ q' → q' ≠ [] → t.get (q ++ [.multiWildcard]) ≠ none →
          q' = [.multiWildcard] := by
  have hshadow : ∀ q, Shadowed t q ↔ t.get (q ++ [.multiWildcard]) ≠ none := by
    intro q
    constructor
    · rintro ⟨r, hr⟩
      obtain rfl := hashLast_of_parsed (h.parsed _ hr) q r rfl
      exact hr
    · exact fun hr => ⟨[], hr⟩
  rw [«matches», mem_collect_hash h.wf h.pruned]
  constructor
  · rintro ⟨k, ks, ⟨rfl, hget⟩, hfirst, hseen⟩
    refine ⟨hget, fun l hl => ?_, fun q q' heq hne hq => hseen q q' heq hne ((hshadow q).2 hq)⟩
    cases hl
    exact hfirst rfl
  · rintro ⟨hget, hfirst, hseen⟩
    obtain ⟨levels⟩ := topic
    cases levels with
    | nil =>
      rw [h.get_nil] at hget
      cases hget
    | cons k ks =>
      exact ⟨k, ks, ⟨rfl, hget⟩, fun _ => hfirst k rfl,
        fun q q' heq hne hq => hseen q q' heq hne ((hshadow q).1 hq)⟩

theorem Stocked.nodup_matches_hash (h : Stocked t) : ((t.matches ⟨[.multiWildcard]⟩).map Prod.fst).Nodup :=
  nodup_collect_hash h.wf h.pruned []

end RetainTree

/-! ## The pages -/

namespace DefaultRetainStorage

abbrev PageItem := String × Retain × Option Nanos

/-- `get_all_paginated`.  For each message the clock is read twice: whether it is expired at `now`, and
how long it lives at `now'`. -/
def getAllPaginated (self : DefaultRetainStorage) (now now' : Instant) (offset limit : ℕ) :
    Except TopicError (List PageItem × Bool) := do
  let topic ← Topic.fromStr "#"
  let all := (self.messages.matches topic).filterMap fun (t, tv) =>
    if tv.isExpired now then none else some (t.toStr, tv.value, tv.remaining now')
  let total := all.length
  let hasMore := decide (offset + limit < total)
  let items := (all.drop offset).take limit
  return (items, hasMore)

/-- What a node gets that asks for all pages; `clock i` are the times of the page with number `i`.  An
error is answered as an empty last page. -/
def copy (self : DefaultRetainStorage) (clock : ℕ → Instant × Instant) (limit fuel : ℕ) :
    Option (List PageItem) :=
  fetchPages (fun i offset =>
    (self.getAllPaginated (clock i).1 (clock i).2 offset limit).toOption.getD ([], false)) limit fuel 0 0

/-- No message expires while the pages are read. -/
def Steady (self : DefaultRetainStorage) (clock : ℕ → Instant × Instant) : Prop :=
  ∀ ks tv, self.messages.get ks = some tv → ∀ i,
    tv.isExpired (clock i).1 = tv.isExpired (clock 0).1 ∧
      tv.isExpired (clock i).2 = tv.isExpired (clock 0).1

def Live (self : DefaultRetainStorage) (now : Instant) (t : Topic) (tv : TimedValue Retain) : Prop :=
  self.messages.get t.levels = some tv ∧ tv.isExpired now = false

/-- The items are the live messages, each once, with the time to their deadline. -/
structure Copied (s : DefaultRetainStorage) (clock : ℕ → Instant × Instant)
    (out : List PageItem) : Prop where
  once : (out.map Prod.fst).Nodup
  sound : ∀ x ∈ out, ∃ t tv i, s.Live (clock 0).1 t tv ∧
    x = (t.toStr, tv.value, tv.deadline.map (· - (clock i).2))
  complete : ∀ t tv, s.Live (clock 0).1 t tv →
    ∃ i, (t.toStr, tv.value, tv.deadline.map (· - (clock i).2)) ∈ out

/-- The filter `#` does not find the topic: it starts with `$`, or a stored `#` stands beside one of its
levels. -/
def Hidden (self : DefaultRetainStorage) (t : Topic) : Prop :=
  t.isMetadata = true ∨ ∃ q q', t.levels = q ++ q' ∧ q' ≠ [] ∧ q' ≠ [.multiWildcard] ∧
    self.messages.get (q ++ [.multiWildcard]) ≠ none

def shownMessages (self : DefaultRetainStorage) (now : Instant) : List (Topic × TimedValue Retain) :=
  (self.messages.matches ⟨[.multiWildcard]⟩).filter fun x => !x.2.isExpired now

section

variable {s : DefaultRetainStorage}

variable {now : Instant} {t : Topic}

theorem Consistent.mem_shownMessages (h : Consistent s)
    {tv : TimedValue Retain} : (t, tv) ∈ s.shownMessages now ↔ s.Live now t tv ∧ ¬ s.Hidden t := by
  rw [shownMessages, mem_filter, h.stocked.mem_matches_hash, Bool.not_eq_true', Live, Hidden]
  have hfirst : (∀ l, t.levels.head? = some l → l.isMetadata = false) ↔ ¬ t.isMetadata = true := by
    rw [Topic.isMetadata]
    cases t.levels.head? <;> simp
  rw [hfirst]
  constructor
  · rintro ⟨⟨hget, hmeta, hseen⟩, hlive⟩
    refine ⟨⟨hget, hlive⟩, ?_⟩
    rintro (h' | ⟨q, q', heq, hne, hnot, hstored⟩)
    · exact hmeta h'
    · exact hnot (hseen q q' heq hne hstored)
  · rintro ⟨⟨hget, hlive⟩, hhidden⟩
    refine ⟨⟨hget, fun h' => hhidden (.inl h'), fun q q' heq hne hstored => ?_⟩, hlive⟩
    by_contra hnot
    exact hhidden (.inr ⟨q, q', heq, hne, hnot, hstored⟩)

theorem Consistent.nodup_shownMessages (h : Consistent s) (now : Instant) :
    ((s.shownMessages now).map Prod.fst).Nodup :=
  h.stocked.nodup_matches_hash.sublist (filter_sublist.map _)

theorem Consistent.parsed_of_live (h : Consistent s) {tv : TimedValue Retain}
    (hlive : s.Live now t tv) : t.Parsed :=
  h.stocked.parsed t.levels (by rw [hlive.1]; exact nofun)

theorem Consistent.parsed_of_shown (h : Consistent s)
    (ht : t ∈ (s.shownMessages now).map Prod.fst) : t.Parsed := by
  obtain ⟨⟨t, tv⟩, hmem, rfl⟩ := mem_map.1 ht
  exact h.parsed_of_live (h.mem_shownMessages.1 hmem).1

theorem toStr_injective {t' : Topic} (h : t.Parsed) (h' : t'.Parsed) (heq : t.toStr = t'.toStr) : t = t' := by
  obtain ⟨str, hstr⟩ := h
  obtain ⟨str', hstr'⟩ := h'
  rw [Topic.toStr_fromStr hstr, Topic.toStr_fromStr hstr'] at heq
  rw [heq] at hstr
  exact Except.ok.inj (hstr.symm.trans hstr')

theorem filterMap_ite {α β : Type} (l : List α) (p : α → Bool) (f : α → β) :
    (l.filterMap fun a => if p a then none else some (f a)) = (l.filter fun a => !p a).map f := by
  induction l with
  | nil => rfl
  | cons a l ih => cases h : p a <;> simp [h, ih]

theorem getAllPaginated_eq {clock : ℕ → Instant × Instant} (hsteady : s.Steady clock)
    (h : Consistent s) (i offset limit : ℕ) :
    s.getAllPaginated (clock i).1 (clock i).2 offset limit =
      .ok (pageOf ((s.shownMessages (clock 0).1).map fun x =>
        (x.1.toStr, x.2.value, x.2.remaining (clock i).2)) limit offset) := by
  have hfilter : (s.messages.matches ⟨[.multiWildcard]⟩).filter (fun x => !x.2.isExpired (clock i).1) =
      s.shownMessages (clock 0).1 := by
    refine filter_congr fun x hx => ?_
    have hstored := (h.stocked.mem_matches_hash x.1 x.2).1 hx
    rw [(hsteady _ _ hstored.1 i).1]
  have hparse : Topic.fromStr "#" = .ok ⟨[.multiWildcard]⟩ := by decide +kernel
  rw [getAllPaginated, hparse, ← hfilter, ← filterMap_ite]
  rfl

theorem remaining_of_live {V : Type} {tv : TimedValue V} (h : tv.isExpired now = false) :
    tv.remaining now = tv.deadline.map (· - now) := by
  obtain ⟨v, deadline⟩ := tv
  cases deadline with
  | none => rfl
  | some d =>
    have hlt : now < d := by simpa [TimedValue.isExpired] using h
    simp [TimedValue.remaining, hlt]

/-- The pages show every live message that is not hidden, once. -/
theorem exists_copy (h : Consistent s) {clock : ℕ → Instant × Instant} (hsteady : s.Steady clock)
    {limit : ℕ} (hlimit : 1 ≤ limit) :
    ∃ out, (∃ n, ∀ fuel ≥ n, s.copy clock limit fuel = some out) ∧
      List.Forall₂ (fun x y => ∃ i, y = (x.1.toStr, x.2.value, x.2.deadline.map (· - (clock i).2)))
        (s.shownMessages (clock 0).1) out := by
  have hfuel : (s.shownMessages (clock 0).1).length < (s.shownMessages (clock 0).1).length + 1 + 0 :=
    Nat.lt_succ_self _
  obtain ⟨out, hout, hall⟩ := fetchPages_spec (s.shownMessages (clock 0).1)
    (fun i x => (x.1.toStr, x.2.value, x.2.remaining (clock i).2)) hlimit 0 0 hfuel (.inl rfl)
  refine ⟨out, ⟨(s.shownMessages (clock 0).1).length + 1, fun fuel hfuel => ?_⟩, ?_⟩
  · rw [copy]
    simp only [getAllPaginated_eq hsteady h, Except.toOption, Option.getD_some]
    exact fetchPages_mono hout hfuel
  · rw [drop_zero] at hall
    refine ((forall₂_and_left _ _).2 ⟨fun x hx => hx, hall⟩).imp ?_
    rintro ⟨t, tv⟩ _ ⟨hx, i, rfl⟩
    obtain ⟨⟨hget, hlive⟩, -⟩ := h.mem_shownMessages.1 hx
    refine ⟨i, ?_⟩
    rw [remaining_of_live ((hsteady _ _ hget i).2.trans hlive)]

end

/-- The pages cover a store without hidden messages. -/
theorem copied_of_forall_visible {s : DefaultRetainStorage} (hcons : Consistent s)
    {clock : ℕ → Instant × Instant} {out : List PageItem}
    (hall : List.Forall₂ (fun x y => ∃ i, y = (x.1.toStr, x.2.value, x.2.deadline.map (· - (clock i).2)))
      (s.shownMessages (clock 0).1) out)
    (hvisible : ∀ t tv, s.Live (clock 0).1 t tv → ¬ s.Hidden t) : Copied s clock out := by
  refine ⟨?_, fun x hx => ?_, fun t tv hlive => ?_⟩
  · have htopics : out.map Prod.fst = ((s.shownMessages (clock 0).1).map Prod.fst).map Topic.toStr := by
      rw [map_map, ← forall₂_eq_eq_eq, forall₂_map_left_iff, forall₂_map_right_iff]
      refine hall.flip.imp ?_
      rintro _ x ⟨i, rfl⟩
      rfl
    rw [htopics, nodup_map_iff_inj_on (hcons.nodup_shownMessages _)]
    intro t ht t' ht'
    exact toStr_injective (hcons.parsed_of_shown ht) (hcons.parsed_of_shown ht')
  · obtain ⟨⟨t, tv⟩, hmem, i, rfl⟩ := forall₂_mem_right hall hx
    exact ⟨t, tv, i, (hcons.mem_shownMessages.1 hmem).1, rfl⟩
  · have hmem : (t, tv) ∈ s.shownMessages (clock 0).1 :=
      hcons.mem_shownMessages.2 ⟨hlive, hvisible t tv hlive⟩
    obtain ⟨y, hy, i, rfl⟩ := forall₂_mem_left hall hmem
    exact ⟨i, hy⟩

/-- The pages cover the store exactly if no live message is hidden from the filter `#`. -/
theorem copied_iff {s : DefaultRetainStorage} (h : Reachable s) {clock : ℕ → Instant × Instant}
    (hsteady : s.Steady clock) {limit : ℕ} (hlimit : 1 ≤ limit) :
    ∃ out, (∃ n, ∀ fuel ≥ n, s.copy clock limit fuel = some out) ∧
      (Copied s clock out ↔ ¬ ∃ t tv, s.Live (clock 0).1 t tv ∧ s.Hidden t) := by
  have hcons := h.consistent
  obtain ⟨out, hout, hall⟩ := exists_copy hcons hsteady hlimit
  refine ⟨out, hout, fun hcopied => ?_, fun hnone => ?_⟩
  · rintro ⟨t, tv, hlive, hhidden⟩
    obtain ⟨i, hmem⟩ := hcopied.complete t tv hlive
    obtain ⟨⟨t', tv'⟩, hx, j, heq⟩ := forall₂_mem_right hall hmem
    obtain ⟨hlive', hvisible⟩ := hcons.mem_shownMessages.1 hx
    have htopic : t = t' :=
      toStr_injective (hcons.parsed_of_live hlive) (hcons.parsed_of_live hlive') (congrArg Prod.fst heq)
    exact hvisible (htopic ▸ hhidden)
  · exact copied_of_forall_visible hcons hall fun t tv hlive hhidden => hnone ⟨t, tv, hlive, hhidden⟩

def storedAt (topic : String) (l : Level) (createTime : Option TimestampMillis) :
    DefaultRetainStorage :=
  ⟨RetainTree.insert Trie.empty ⟨[l]⟩ (.new (.plain topic [120] createTime) none 0), Counter.inc {}⟩

theorem live_storedAt_iff {topic : String} {l : Level} {createTime : Option TimestampMillis}
    {now : Instant} {t : Topic} {tv : TimedValue Retain} : (storedAt topic l createTime).Live now t tv ↔
      t = ⟨[l]⟩ ∧ tv = .new (.plain topic [120] createTime) none 0 := by
  constructor
  · rintro ⟨hget, -⟩
    rw [storedAt, RetainTree.get_insert, Trie.get_empty] at hget
    split_ifs at hget with heq
    exact ⟨congrArg Topic.mk heq, (Option.some.inj hget).symm⟩
  · rintro ⟨rfl, rfl⟩
    refine ⟨?_, rfl⟩
    rw [storedAt, RetainTree.get_insert, if_pos rfl]

theorem not_hidden_storedAt {topic : String} {l : Level} {createTime : Option TimestampMillis}
    (hl : l ≠ .multiWildcard) (hmeta : l.isMetadata = false) :
    ¬ (storedAt topic l createTime).Hidden ⟨[l]⟩ := by
  rintro (h | ⟨q, q', heq, hne, -, hstored⟩)
  · rw [Topic.isMetadata, head?_cons, Option.any_some, hmeta] at h
    cases h
  · refine hstored ((RetainTree.get_insert _ _ _ _).trans ?_)
    rw [if_neg, Trie.get_empty]
    · rfl
    · intro hlevels
      have hlast := congrArg List.getLast? hlevels
      rw [getLast?_concat] at hlast
      exact hl (Option.some.inj hlast).symm

theorem copied_stored_a : ∃ out, (∃ n, ∀ fuel ≥ n,
    (storedAt "a" (.normal "a") none).copy (fun _ => (0, 0)) 1 fuel = some out) ∧
      Copied (storedAt "a" (.normal "a") none) (fun _ => (0, 0)) out := by
  have hreach : Reachable (storedAt "a" (.normal "a") none) :=
    .set 0 "a" (.plain "a" [120] none) none .new rfl
  have hsteady : (storedAt "a" (.normal "a") none).Steady fun _ => (0, 0) := fun _ _ _ _ => ⟨rfl, rfl⟩
  obtain ⟨out, hout, hiff⟩ := copied_iff hreach hsteady (le_refl 1)
  refine ⟨out, hout, hiff.2 ?_⟩
  rintro ⟨t, tv, hlive, hhidden⟩
  obtain ⟨rfl, -⟩ := live_storedAt_iff.1 hlive
  exact not_hidden_storedAt (show Level.normal "a" ≠ .multiWildcard from nofun) rfl hhidden

/-- A topic that starts with `$` is in no page. -/
theorem sys_topic_not_copied : Reachable (storedAt "$SYS" (.metadata "$SYS") none) ∧
    (storedAt "$SYS" (.metadata "$SYS") none).Live 0 ⟨[.metadata "$SYS"]⟩
      (.new (.plain "$SYS" [120] none) none 0) ∧
    ∃ n, ∀ fuel ≥ n, (storedAt "$SYS" (.metadata "$SYS") none).copy (fun _ => (0, 0)) 1 fuel = some [] := by
  have hreach : Reachable (storedAt "$SYS" (.metadata "$SYS") none) :=
    .set 0 "$SYS" (.plain "$SYS" [120] none) none .new rfl
  refine ⟨hreach, ⟨rfl, rfl⟩, ?_⟩
  have hsteady : (storedAt "$SYS" (.metadata "$SYS") none).Steady fun _ => (0, 0) :=
    fun _ _ _ _ => ⟨rfl, rfl⟩
  obtain ⟨out, hout, hall⟩ := exists_copy hreach.consistent hsteady (le_refl 1)
  have hempty : (storedAt "$SYS" (.metadata "$SYS") none).shownMessages 0 = [] := by
    refine eq_nil_iff_forall_not_mem.2 fun ⟨t, tv⟩ hmem => ?_
    obtain ⟨hlive, hvisible⟩ := hreach.consistent.mem_shownMessages.1 hmem
    obtain ⟨rfl, -⟩ := live_storedAt_iff.1 hlive
    exact hvisible (.inl rfl)
  rw [hempty, forall₂_nil_left_iff] at hall
  rwa [hall] at hout

end DefaultRetainStorage

end FerroMq
