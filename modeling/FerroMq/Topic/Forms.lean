import FerroMq.Topic.Prefixes

/-!
# The forms of a topic filter

What `parse_topic_filter` should do with `$share`, `$limit` and `$exclusive` (`Intended`), and what it does.  A
share group may be empty or have wildcards, a limit may have a sign, several `$exclusive/` are removed, and
short filters are limited or rejected (`prefix_misread`).  `conforms_iff` says that everything else is read as
it should be.
-/

namespace FerroMq

open Codec List

/-! ## What should be accepted -/

def Decimal (s : String) : Prop := s ≠ "" ∧ ∀ c ∈ s.toList, c.isDigit = true

def decimalFrom (n : ℕ) (s : List Char) : ℕ := s.foldl (fun n c => 10 * n + (c.toNat - '0'.toNat)) n

def decimalValue (s : String) : ℕ := decimalFrom 0 s.toList

def GroupName (s : String) : Prop := s ≠ "" ∧ '+' ∉ s.toList ∧ '#' ∉ s.toList

/-- One of the forms with a prefix. -/
def HasForm (s : TopicFilter) : Prop :=
  (∃ group f, '/' ∉ group.toList ∧ s = "$share/" ++ group ++ "/" ++ f) ∨
    (∃ n f, '/' ∉ n.toList ∧ s = "$limit/" ++ n ++ "/" ++ f) ∨
    ∃ f, s = "$exclusive/" ++ f

/-- What a filter should be read as. -/
inductive Intended : TopicFilter → TopicFilter × Option SharedGroup × Option ℕ → Prop
  | share {group f : String} : '/' ∉ group.toList → GroupName group → f ≠ "" →
      Intended ("$share/" ++ group ++ "/" ++ f) (f, some group, none)
  | limit {n f : String} : Decimal n → f ≠ "" →
      Intended ("$limit/" ++ n ++ "/" ++ f) (f, none, some (decimalValue n))
  | exclusive {f : String} : f ≠ "" → Intended ("$exclusive/" ++ f) (f, none, some 1)
  | other {s : String} : s ≠ "" → ¬ HasForm s → Intended s (s, none, none)

/-- The filter is accepted exactly if it should be, and then with the right result. -/
def Conforms (s : TopicFilter) : Prop := ∀ r, parseTopicFilter s true true = .ok r ↔ Intended s r

/-- No other filter has the same result. -/
def Unique (s : TopicFilter) : Prop :=
  ∀ s' r, parseTopicFilter s true true = .ok r → parseTopicFilter s' true true = .ok r → s' = s

/-- The number of a limit is read as it should be: if it is decimal, it fits a word, and if it has a
sign, it does not. -/
def LimitConforms (n : String) : Prop :=
  (Decimal n → decimalValue n < UInt64.size) ∧
    ∀ m, n = "+" ++ m → Decimal m → UInt64.size ≤ decimalValue m

/-- The filters that are read as they should be, by their levels. -/
def LevelsConform (s : TopicFilter) : Prop :=
  match splitn 3 s with
  | ["$share", group, f] => f = "" ∨ GroupName group
  | ["$limit", n, f] => f = "" ∨ LimitConforms n
  | "$share" :: _ | "$limit" :: _ => False
  | "$exclusive" :: levels => levels ≠ [] ∧ ¬ ("$exclusive/$exclusive/").toList <+: s.toList
  | _ => True

/-- If the filter is accepted, it has none of the prefixes for a limit. -/
def Unlimited (s : TopicFilter) : Prop :=
  ∀ r, parseTopicFilter s true true = .ok r →
    (splitn 3 s).head? ≠ some "$limit" ∧ (splitn 3 s).head? ≠ some "$exclusive"

/-! ## Numbers -/

theorem le_decimalFrom (n : ℕ) (s : List Char) : n ≤ decimalFrom n s := by
  induction s generalizing n with
  | nil => exact le_rfl
  | cons c s ih =>
    have := ih (10 * n + (c.toNat - '0'.toNat))
    change n ≤ decimalFrom (10 * n + (c.toNat - '0'.toNat)) s
    omega

theorem parseDigits_eq_ok_iff {bound n k : ℕ} {s : List Char} :
    parseDigits bound n s = .ok k ↔
      (∀ c ∈ s, c.isDigit = true) ∧ decimalFrom n s = k ∧ (s ≠ [] → k < bound) := by
  induction s generalizing n with
  | nil => simp [parseDigits, decimalFrom]
  | cons c s ih =>
    have hcons : decimalFrom n (c :: s) = decimalFrom (10 * n + (c.toNat - '0'.toNat)) s := rfl
    rw [parseDigits, forall_mem_cons, hcons]
    dsimp only
    generalize 10 * n + (c.toNat - '0'.toNat) = n'
    by_cases hdigit : c.isDigit = true
    swap
    · rw [if_neg hdigit]
      exact iff_of_false nofun fun h => hdigit h.1.1
    rw [if_pos hdigit]
    by_cases hbound : n' < bound
    · rw [if_pos hbound, ih]
      constructor
      · rintro ⟨hall, hvalue, hlt⟩
        refine ⟨⟨hdigit, hall⟩, hvalue, fun _ => ?_⟩
        cases s with
        | nil => exact hvalue ▸ hbound
        | cons c' s => exact hlt (cons_ne_nil _ _)
      · rintro ⟨⟨-, hall⟩, hvalue, hlt⟩
        exact ⟨hall, hvalue, fun _ => hlt (cons_ne_nil _ _)⟩
    · rw [if_neg hbound]
      refine iff_of_false nofun fun h => ?_
      have hle := le_decimalFrom n' s
      have hlt := h.2.2 (cons_ne_nil _ _)
      omega

theorem decimal_iff {s : String} : Decimal s ↔ s.toList ≠ [] ∧ ∀ c ∈ s.toList, c.isDigit = true := by
  simp [Decimal]

theorem eq_plus_iff {s m : String} : s = "+" ++ m ↔ s.toList = '+' :: m.toList := by
  rw [← String.toList_inj]
  simp

theorem parseUnsigned_eq_ok_iff {bound k : ℕ} {s : String} :
    parseUnsigned bound s = .ok k ↔
      (Decimal s ∧ decimalValue s = k ∧ k < bound) ∨
      ∃ m, s = "+" ++ m ∧ Decimal m ∧ decimalValue m = k ∧ k < bound := by
  simp only [decimal_iff, eq_plus_iff, decimalValue]
  unfold parseUnsigned
  split
  · simp_all
  · simp_all
  · rename_i digits hne hs
    rw [parseDigits_eq_ok_iff, hs]
    constructor
    · rintro ⟨hall, hvalue, hlt⟩
      have hdigits : digits ≠ [] := fun hnil => hne (by rw [hnil])
      refine .inr ⟨String.ofList digits, ?_⟩
      rw [String.toList_ofList]
      exact ⟨rfl, ⟨hdigits, hall⟩, hvalue, hlt hdigits⟩
    · rintro (⟨⟨-, hall⟩, -⟩ | ⟨m, hm, ⟨-, hall⟩, hvalue, hlt⟩)
      · exact absurd (hall '+' mem_cons_self) (by decide)
      · obtain rfl := (List.cons.inj hm).2
        exact ⟨hall, hvalue, fun _ => hlt⟩
  · rename_i hempty hsign hplus
    rw [parseDigits_eq_ok_iff]
    constructor
    · rintro ⟨hall, hvalue, hlt⟩
      exact .inl ⟨⟨hempty, hall⟩, hvalue, hlt hempty⟩
    · rintro (⟨⟨-, hall⟩, hvalue, hlt⟩ | ⟨m, hm, -⟩)
      · exact ⟨hall, hvalue, fun _ => hlt⟩
      · exact absurd hm (hplus _)

/-- A limit is accepted exactly if it is decimal, with its value, if and only if it conforms. -/
theorem limitConforms_iff {n : String} :
    (∀ k, parseUnsigned UInt64.size n = .ok k ↔ Decimal n ∧ decimalValue n = k) ↔ LimitConforms n := by
  constructor
  · intro h
    constructor
    · intro hn
      have hok := (h (decimalValue n)).2 ⟨hn, rfl⟩
      rcases parseUnsigned_eq_ok_iff.1 hok with ⟨-, -, hlt⟩ | ⟨-, -, -, -, hlt⟩
      exacts [hlt, hlt]
    · rintro m rfl hm
      by_contra hlt
      have hok := parseUnsigned_eq_ok_iff.2 (.inr ⟨m, rfl, hm, rfl, Nat.lt_of_not_le hlt⟩)
      have hplus := ((h _).1 hok).1.2 '+' (by simp)
      exact absurd hplus (by decide)
  · rintro ⟨hfits, hsign⟩ k
    rw [parseUnsigned_eq_ok_iff]
    constructor
    · rintro (⟨hn, hvalue, -⟩ | ⟨m, hm, hdecimal, rfl, hlt⟩)
      · exact ⟨hn, hvalue⟩
      · exact absurd hlt (Nat.not_lt_of_le (hsign m hm hdecimal))
    · rintro ⟨hn, rfl⟩
      exact .inl ⟨hn, rfl, hfits hn⟩

/-! ## Levels -/

theorem exists_level (s : String) :
    '/' ∉ s.toList ∨ ∃ a rest, '/' ∉ a.toList ∧ s = a ++ "/" ++ rest := by
  suffices h : ∀ l : List Char, '/' ∉ l ∨ ∃ a rest, '/' ∉ a ∧ l = a ++ '/' :: rest by
    refine (h s.toList).imp id ?_
    rintro ⟨a, rest, ha, hs⟩
    refine ⟨String.ofList a, String.ofList rest, by rwa [String.toList_ofList], ?_⟩
    rw [← String.toList_inj, hs]
    simp
  intro l
  induction l with
  | nil => exact .inl not_mem_nil
  | cons c l ih =>
    by_cases hc : c = '/'
    · exact .inr ⟨[], l, not_mem_nil, by rw [hc]; rfl⟩
    rcases ih with hl | ⟨a, rest, ha, rfl⟩
    · exact .inl (not_mem_cons_of_ne_of_not_mem (Ne.symm hc) hl)
    · exact .inr ⟨c :: a, rest, not_mem_cons_of_ne_of_not_mem (Ne.symm hc) ha, rfl⟩

theorem splitn_limit {n f : String} (h : '/' ∉ n.toList) :
    splitn 3 ("$limit/" ++ n ++ "/" ++ f) = ["$limit", n, f] := by
  have htext : "$limit/" ++ n ++ "/" ++ f = "$limit" ++ "/" ++ (n ++ "/" ++ f) := by
    simp [String.append_assoc]
  rw [htext, splitn_three (by decide) h]

theorem splitn_exclusive (f : String) :
    ∃ l ls, splitn 3 ("$exclusive/" ++ f) = "$exclusive" :: l :: ls := by
  have htext : "$exclusive/" ++ f = "$exclusive" ++ "/" ++ f := by simp
  have hsplit : splitn 3 ("$exclusive/" ++ f) = "$exclusive" :: splitn 2 f := by
    rw [htext, splitn_append (by decide)]
  rcases exists_level f with hf | ⟨a, rest, ha, rfl⟩
  · exact ⟨f, [], by rw [hsplit, splitn_of_notMem hf]⟩
  · exact ⟨a, _, by rw [hsplit, splitn_append ha]⟩

theorem first_ne {s a b : String} {l l' : List String} (h : splitn 3 s = a :: l)
    (h' : splitn 3 s = b :: l') {p : Prop} (hne : a ≠ b := by decide) : p :=
  absurd (List.cons.inj (h.symm.trans h')).1 hne

/-- What a filter looks like: one of the three forms; a single level or two under `$share` or `$limit`;
the single level `$exclusive`; or no prefix at all. -/
inductive Shape (s : TopicFilter) : Prop
  | share (group f : String) : '/' ∉ group.toList → s = "$share/" ++ group ++ "/" ++ f → Shape s
  | limit (n f : String) : '/' ∉ n.toList → s = "$limit/" ++ n ++ "/" ++ f → Shape s
  | exclusive (f : String) : s = "$exclusive/" ++ f → Shape s
  | short (a : String) (levels : List String) : a = "$share" ∨ a = "$limit" →
      splitn 3 s = a :: levels → levels.length < 2 → Shape s
  | bare : s = "$exclusive" → Shape s
  | plain (a : String) (levels : List String) : splitn 3 s = a :: levels →
      a ≠ "$share" → a ≠ "$limit" → a ≠ "$exclusive" → Shape s

theorem shape (s : TopicFilter) : Shape s := by
  rcases exists_level s with hs | ⟨a, rest, ha, rfl⟩
  · have hlevels : splitn 3 s = [s] := splitn_of_notMem hs
    by_cases hshare : s = "$share"
    · exact .short s [] (.inl hshare) hlevels (by decide)
    by_cases hlimit : s = "$limit"
    · exact .short s [] (.inr hlimit) hlevels (by decide)
    by_cases hexclusive : s = "$exclusive"
    · exact .bare hexclusive
    exact .plain s [] hlevels hshare hlimit hexclusive
  have hlevels : splitn 3 (a ++ "/" ++ rest) = a :: splitn 2 rest := splitn_append ha
  by_cases hexclusive : a = "$exclusive"
  · exact .exclusive rest (by rw [hexclusive]; simp)
  by_cases hprefixed : a = "$share" ∨ a = "$limit"
  swap
  · rw [not_or] at hprefixed
    exact .plain a _ hlevels hprefixed.1 hprefixed.2 hexclusive
  rcases exists_level rest with hrest | ⟨b, c, hb, rfl⟩
  · exact .short a [rest] hprefixed (by rw [hlevels, splitn_of_notMem hrest]) (Nat.lt_succ_self 1)
  rcases hprefixed with rfl | rfl
  · exact .share b c hb (by simp [String.append_assoc])
  · exact .limit b c hb (by simp [String.append_assoc])

/-! ## What is accepted -/

theorem parse_eq_ok_iff {s : TopicFilter} {r : TopicFilter × Option SharedGroup × Option ℕ} :
    parseTopicFilter s true true = .ok r ↔ parseLevels s true true = .ok r ∧ r.1 ≠ "" := by
  unfold parseTopicFilter
  cases parseLevels s true true with
  | error e => exact iff_of_false nofun fun h => nomatch h.1
  | ok x =>
    obtain ⟨topic, group, limit⟩ := x
    simp only [Bool.or_self, if_true, bind, Except.bind]
    split_ifs with htopic
    · refine iff_of_false nofun ?_
      rintro ⟨hr, hne⟩
      obtain rfl := Except.ok.inj hr
      exact hne htopic
    · refine ⟨fun h => ⟨h, ?_⟩, fun h => h.1⟩
      obtain rfl := Except.ok.inj h
      exact htopic

section Parse

variable {s : TopicFilter} {r : TopicFilter × Option SharedGroup × Option ℕ}

theorem parse_of_levels {x : TopicFilter × Option SharedGroup × Option ℕ}
    (h : parseLevels s true true = .ok x) : parseTopicFilter s true true = .ok r ↔ x.1 ≠ "" ∧ r = x := by
  rw [parse_eq_ok_iff, h]
  constructor
  · rintro ⟨hr, hne⟩
    obtain rfl := Except.ok.inj hr
    exact ⟨hne, rfl⟩
  · rintro ⟨hne, rfl⟩
    exact ⟨rfl, hne⟩

theorem parse_share {group f : String} (h : '/' ∉ group.toList) :
    parseTopicFilter ("$share/" ++ group ++ "/" ++ f) true true = .ok r ↔
      f ≠ "" ∧ r = (f, some group, none) :=
  parse_of_levels (x := (f, some group, none)) (by rw [parseLevels, splitn_share h]; rfl)

theorem parse_limit {n f : String} (h : '/' ∉ n.toList) :
    parseTopicFilter ("$limit/" ++ n ++ "/" ++ f) true true = .ok r ↔
      f ≠ "" ∧ ∃ k, parseUnsigned UInt64.size n = .ok k ∧ r = (f, none, some k) := by
  cases hn : parseUnsigned UInt64.size n with
  | error e =>
    rw [parse_eq_ok_iff, parseLevels, splitn_limit h]
    refine iff_of_false (fun h => ?_) fun ⟨_, k, hk, _⟩ => nomatch hk
    simp [hn] at h
  | ok k =>
    rw [parse_of_levels (x := (f, none, some k)) (by simp only [parseLevels, splitn_limit h, hn])]
    simp only [Except.ok.injEq, exists_eq_left']

theorem parse_short {a : String} {levels : List String} (ha : a = "$share" ∨ a = "$limit")
    (hlevels : splitn 3 s = a :: levels) (hshort : levels.length < 2) :
    parseTopicFilter s true true ≠ .ok r := by
  intro h
  have hparse := (parse_eq_ok_iff.1 h).1
  rw [parseLevels, hlevels] at hparse
  rcases ha with rfl | rfl <;> match levels, hshort with
    | [], _ => simp at hparse
    | [_], _ => simp at hparse

theorem parse_plain {a : String} {levels : List String} (hlevels : splitn 3 s = a :: levels)
    (hshare : a ≠ "$share") (hlimit : a ≠ "$limit") (hexclusive : a ≠ "$exclusive") :
    parseTopicFilter s true true = .ok r ↔ s ≠ "" ∧ r = (s, none, none) := by
  have hparse : parseLevels s true true = .ok (s, none, none) := by
    rw [parseLevels, hlevels]
    split <;> simp_all
  exact parse_of_levels hparse

theorem parse_exclusive (f : String) :
    parseTopicFilter ("$exclusive/" ++ f) true true = .ok r ↔
      trimStartMatches ("$exclusive/" ++ f) "$exclusive/" ≠ "" ∧
        r = (trimStartMatches ("$exclusive/" ++ f) "$exclusive/", none, some 1) := by
  obtain ⟨l, ls, hlevels⟩ := splitn_exclusive f
  exact parse_of_levels (x := (trimStartMatches _ _, none, some 1)) (by rw [parseLevels, hlevels]; rfl)

theorem parse_bare : parseTopicFilter "$exclusive" true true = .ok ("$exclusive", none, some 1) := by
  decide +kernel

end Parse

/-! ## Repeated prefixes -/

section Trim

variable {pattern : List Char}

theorem trimStartLoop_of_not {s : List Char} (h : ¬ pattern <+: s) (n : ℕ) :
    trimStartLoop pattern n s = s := by
  cases n with
  | zero => rfl
  | succ n => exact if_neg fun hp => h (List.isPrefixOf_iff_prefix.1 hp)

theorem trimStartLoop_append (n : ℕ) (s : List Char) :
    trimStartLoop pattern (n + 1) (pattern ++ s) = trimStartLoop pattern n s := by
  rw [trimStartLoop, if_pos (List.isPrefixOf_iff_prefix.2 (prefix_append pattern s)),
    drop_left]

theorem length_trimStartLoop_le (n : ℕ) (s : List Char) :
    (trimStartLoop pattern n s).length ≤ s.length := by
  induction n generalizing s with
  | zero => exact le_rfl
  | succ n ih =>
    rw [trimStartLoop]
    split_ifs
    · exact (ih _).trans (by simp)
    · exact le_rfl

end Trim

theorem trimStartMatches_exclusive (f : String) :
    trimStartMatches ("$exclusive/" ++ f) "$exclusive/" = f ↔ ¬ "$exclusive/".toList <+: f.toList := by
  have hlength : ("$exclusive/" ++ f).length = f.length + 10 + 1 := by
    rw [String.length_append]
    exact Nat.add_comm 11 _
  have htrim : trimStartMatches ("$exclusive/" ++ f) "$exclusive/" =
      String.ofList (trimStartLoop "$exclusive/".toList (f.length + 10) f.toList) := by
    rw [trimStartMatches, hlength, String.toList_append, trimStartLoop_append]
  rw [htrim, ← String.toList_inj, String.toList_ofList]
  constructor
  · rintro heq ⟨rest, hrest⟩
    rw [← hrest, trimStartLoop_append] at heq
    have hle := @length_trimStartLoop_le "$exclusive/".toList (f.length + 9) rest
    have hlen := congrArg List.length heq
    rw [length_append] at hlen
    have hpos : "$exclusive/".toList.length = 11 := by decide
    omega
  · exact fun h => trimStartLoop_of_not h _

/-! ## Intended results -/

section Intended

variable {r : TopicFilter × Option SharedGroup × Option ℕ} {s : TopicFilter}

theorem HasForm.levels (h : HasForm s) :
    (∃ group f, splitn 3 s = ["$share", group, f]) ∨ (∃ n f, splitn 3 s = ["$limit", n, f]) ∨
      ∃ l ls, splitn 3 s = "$exclusive" :: l :: ls := by
  rcases h with ⟨group, f, hgroup, rfl⟩ | ⟨n, f, hn, rfl⟩ | ⟨f, rfl⟩
  · exact .inl ⟨group, f, splitn_share hgroup⟩
  · exact .inr (.inl ⟨n, f, splitn_limit hn⟩)
  · exact .inr (.inr (splitn_exclusive f))

theorem Decimal.notMem_slash {n : String} (h : Decimal n) : '/' ∉ n.toList :=
  fun hmem => absurd (h.2 '/' hmem) (by decide)

/-- The form of a filter and its levels, with what it should be read as. -/
theorem Intended.levels (h : Intended s r) :
    (∃ group f, splitn 3 s = ["$share", group, f] ∧ GroupName group ∧ f ≠ "" ∧ r = (f, some group, none)) ∨
    (∃ n f, splitn 3 s = ["$limit", n, f] ∧ Decimal n ∧ f ≠ "" ∧ r = (f, none, some (decimalValue n))) ∨
    (∃ f l ls, s = "$exclusive/" ++ f ∧ splitn 3 s = "$exclusive" :: l :: ls ∧ f ≠ "" ∧ r = (f, none, some 1)) ∨
    (¬ HasForm s ∧ s ≠ "" ∧ r = (s, none, none)) := by
  cases h with
  | share hgroup hname hf => exact .inl ⟨_, _, splitn_share hgroup, hname, hf, rfl⟩
  | limit hn hf => exact .inr (.inl ⟨_, _, splitn_limit hn.notMem_slash, hn, hf, rfl⟩)
  | @exclusive f hf =>
    obtain ⟨l, ls, hlevels⟩ := splitn_exclusive f
    exact .inr (.inr (.inl ⟨f, l, ls, rfl, hlevels, hf, rfl⟩))
  | other hne hform => exact .inr (.inr (.inr ⟨hform, hne, rfl⟩))

theorem intended_share {group f : String} (h : '/' ∉ group.toList) :
    Intended ("$share/" ++ group ++ "/" ++ f) r ↔
      GroupName group ∧ f ≠ "" ∧ r = (f, some group, none) := by
  refine ⟨fun hr => ?_, fun ⟨hname, hf, hr⟩ => hr ▸ .share h hname hf⟩
  have hsplit := @splitn_share group f h
  rcases hr.levels with ⟨group', f', hlevels, hname, hf, rfl⟩ | ⟨n, f', hlevels, -⟩ |
    ⟨f', l, ls, -, hlevels, -⟩ | ⟨hform, -⟩
  · obtain ⟨-, rfl, rfl, -⟩ := by simpa only [List.cons.injEq] using hsplit.symm.trans hlevels
    exact ⟨hname, hf, rfl⟩
  · exact first_ne hsplit hlevels
  · exact first_ne hsplit hlevels
  · exact absurd (.inl ⟨group, f, h, rfl⟩) hform

theorem intended_limit {n f : String} (h : '/' ∉ n.toList) :
    Intended ("$limit/" ++ n ++ "/" ++ f) r ↔
      Decimal n ∧ f ≠ "" ∧ r = (f, none, some (decimalValue n)) := by
  refine ⟨fun hr => ?_, fun ⟨hn, hf, hr⟩ => hr ▸ .limit hn hf⟩
  have hsplit := @splitn_limit n f h
  rcases hr.levels with ⟨group, f', hlevels, -⟩ | ⟨n', f', hlevels, hn, hf, rfl⟩ |
    ⟨f', l, ls, -, hlevels, -⟩ | ⟨hform, -⟩
  · exact first_ne hsplit hlevels
  · obtain ⟨-, rfl, rfl, -⟩ := by simpa only [List.cons.injEq] using hsplit.symm.trans hlevels
    exact ⟨hn, hf, rfl⟩
  · exact first_ne hsplit hlevels
  · exact absurd (.inr (.inl ⟨n, f, h, rfl⟩)) hform

theorem intended_exclusive {f : String} :
    Intended ("$exclusive/" ++ f) r ↔ f ≠ "" ∧ r = (f, none, some 1) := by
  refine ⟨fun hr => ?_, fun ⟨hf, hr⟩ => hr ▸ .exclusive hf⟩
  obtain ⟨l, ls, hsplit⟩ := splitn_exclusive f
  rcases hr.levels with ⟨group, f', hlevels, -⟩ | ⟨n, f', hlevels, -⟩ |
    ⟨f', -, -, hs, -, hf, rfl⟩ | ⟨hform, -⟩
  · exact first_ne hsplit hlevels
  · exact first_ne hsplit hlevels
  · obtain rfl : f = f' := by simpa [← String.toList_inj] using hs
    exact ⟨hf, rfl⟩
  · exact absurd (.inr (.inr ⟨f, rfl⟩)) hform

theorem intended_other (h : ¬ HasForm s) : Intended s r ↔ s ≠ "" ∧ r = (s, none, none) := by
  refine ⟨fun hr => ?_, fun ⟨hs, hr⟩ => hr ▸ .other hs h⟩
  cases hr with
  | share hgroup hname hf => exact absurd (.inl ⟨_, _, hgroup, rfl⟩) h
  | limit hn hf => exact absurd (.inr (.inl ⟨_, _, hn.notMem_slash, rfl⟩)) h
  | exclusive hf => exact absurd (.inr (.inr ⟨_, rfl⟩)) h
  | other hne hform => exact ⟨hne, rfl⟩

end Intended

/-! ## Which filters are read as they should be -/

section Conforms

variable {s : TopicFilter} {a f : String} {levels : List String}

theorem not_hasForm (hsplit : splitn 3 s = a :: levels)
    (hshare : a = "$share" ∨ a = "$limit" → levels.length < 2) (hexclusive : a ≠ "$exclusive") :
    ¬ HasForm s := by
  intro h
  rcases h.levels with ⟨group, f, hlevels⟩ | ⟨n, f, hlevels⟩ | ⟨l, ls, hlevels⟩
  · obtain ⟨rfl, rfl⟩ := List.cons.inj (hsplit.symm.trans hlevels)
    exact absurd (hshare (.inl rfl)) (Nat.lt_irrefl 2)
  · obtain ⟨rfl, rfl⟩ := List.cons.inj (hsplit.symm.trans hlevels)
    exact absurd (hshare (.inr rfl)) (Nat.lt_irrefl 2)
  · exact hexclusive (List.cons.inj (hsplit.symm.trans hlevels)).1

theorem conforms_share {group : String} (h : '/' ∉ group.toList) :
    Conforms ("$share/" ++ group ++ "/" ++ f) ↔ f = "" ∨ GroupName group := by
  unfold Conforms
  simp only [parse_share h, intended_share h]
  constructor
  · intro hall
    refine or_iff_not_imp_left.2 fun hf => ?_
    exact ((hall (f, some group, none)).1 ⟨hf, rfl⟩).1
  · rintro (hf | hname) r
    · exact iff_of_false (fun hr => hr.1 hf) fun hr => hr.2.1 hf
    · exact ⟨fun hr => ⟨hname, hr⟩, fun hr => hr.2⟩

theorem conforms_limit {n : String} (h : '/' ∉ n.toList) :
    Conforms ("$limit/" ++ n ++ "/" ++ f) ↔ f = "" ∨ LimitConforms n := by
  unfold Conforms
  simp only [parse_limit h, intended_limit h, ← limitConforms_iff]
  constructor
  · intro hall
    refine or_iff_not_imp_left.2 fun hf k => ?_
    have hk := hall (f, none, some k)
    constructor
    · intro hparse
      obtain ⟨hn, -, hr⟩ := hk.1 ⟨hf, k, hparse, rfl⟩
      simp only [Prod.mk.injEq, Option.some_inj, true_and] at hr
      exact ⟨hn, hr.symm⟩
    · rintro ⟨hn, rfl⟩
      obtain ⟨-, k, hparse, hr⟩ := hk.2 ⟨hn, hf, rfl⟩
      simp only [Prod.mk.injEq, Option.some_inj, true_and] at hr
      rwa [hr]
  · rintro (hf | hlimit) r
    · exact iff_of_false (fun hr => hr.1 hf) fun hr => hr.2.1 hf
    · constructor
      · rintro ⟨hf, k, hparse, rfl⟩
        obtain ⟨hn, rfl⟩ := (hlimit k).1 hparse
        exact ⟨hn, hf, rfl⟩
      · rintro ⟨hn, hf, rfl⟩
        exact ⟨hf, _, (hlimit _).2 ⟨hn, rfl⟩, rfl⟩

theorem conforms_exclusive (f : String) :
    Conforms ("$exclusive/" ++ f) ↔ ¬ "$exclusive/".toList <+: f.toList := by
  rw [← trimStartMatches_exclusive]
  unfold Conforms
  simp only [parse_exclusive, intended_exclusive]
  constructor
  · intro hall
    by_contra hne
    -- there is something behind the first prefix
    have hf : f ≠ "" := by
      rintro rfl
      exact hne ((trimStartMatches_exclusive "").2 (by decide))
    obtain ⟨-, hr⟩ := (hall (f, none, some 1)).2 ⟨hf, rfl⟩
    exact hne (congrArg Prod.fst hr).symm
  · intro heq r
    rw [heq]

theorem not_conforms_short (ha : a = "$share" ∨ a = "$limit")
    (hsplit : splitn 3 s = a :: levels) (hshort : levels.length < 2) : ¬ Conforms s := by
  intro hall
  have hexclusive : a ≠ "$exclusive" := by rcases ha with rfl | rfl <;> decide
  have hform : ¬ HasForm s := not_hasForm hsplit (fun _ => hshort) hexclusive
  have hne : s ≠ "" := by
    rintro rfl
    have hempty : splitn 3 "" = [""] := by decide
    rw [hempty] at hsplit
    obtain rfl := (List.cons.inj hsplit).1
    exact absurd ha (by decide)
  exact parse_short ha hsplit hshort ((hall (s, none, none)).2 (.other hne hform))

theorem not_conforms_bare : ¬ Conforms "$exclusive" := by
  intro hall
  have hsplit : splitn 3 "$exclusive" = ["$exclusive"] := by decide
  have hform : ¬ HasForm "$exclusive" := by
    intro h
    rcases h.levels with ⟨group, f, hlevels⟩ | ⟨n, f, hlevels⟩ | ⟨l, ls, hlevels⟩
    · exact first_ne hsplit hlevels
    · exact first_ne hsplit hlevels
    · exact nomatch (List.cons.inj (hsplit.symm.trans hlevels)).2
  have hr := ((intended_other hform).1 ((hall _).1 parse_bare)).2
  simp at hr

theorem conforms_plain (hsplit : splitn 3 s = a :: levels)
    (hshare : a ≠ "$share") (hlimit : a ≠ "$limit") (hexclusive : a ≠ "$exclusive") : Conforms s := by
  have hform := not_hasForm hsplit (fun h => (h.elim hshare hlimit).elim) hexclusive
  intro r
  rw [parse_plain hsplit hshare hlimit hexclusive, intended_other hform]

theorem conforms_iff_levels (s : TopicFilter) : Conforms s ↔ LevelsConform s := by
  cases shape s with
  | share group f h hs =>
    subst hs
    rw [conforms_share h, LevelsConform, splitn_share h]
    rfl
  | limit n f h hs =>
    subst hs
    rw [conforms_limit h, LevelsConform, splitn_limit h]
    rfl
  | exclusive f hs =>
    subst hs
    obtain ⟨l, ls, hsplit⟩ := splitn_exclusive f
    have htext : "$exclusive/$exclusive/".toList = "$exclusive/".toList ++ "$exclusive/".toList := by
      decide
    rw [conforms_exclusive, LevelsConform, hsplit, htext, String.toList_append]
    change _ ↔ l :: ls ≠ [] ∧ ¬ _
    rw [prefix_append_right_inj]
    exact (and_iff_right (cons_ne_nil l ls)).symm
  | short a levels ha hsplit hshort =>
    refine iff_of_false (not_conforms_short ha hsplit hshort) ?_
    rw [LevelsConform, hsplit]
    rcases ha with rfl | rfl <;> match levels, hshort with
      | [], _ => exact id
      | [_], _ => exact id
  | bare hs =>
    subst hs
    have hsplit : splitn 3 "$exclusive" = ["$exclusive"] := by decide
    refine iff_of_false not_conforms_bare ?_
    rw [LevelsConform, hsplit]
    exact fun h => h.1 rfl
  | plain a levels hsplit hshare hlimit hexclusive =>
    refine iff_of_true (conforms_plain hsplit hshare hlimit hexclusive) ?_
    rw [LevelsConform, hsplit]
    split <;> simp_all

/-! ## Which filters have their result for themselves -/

theorem limit_ne {n n' f' : String} (hn : '/' ∉ n.toList) (hn' : '/' ∉ n'.toList) (hne : n' ≠ n) :
    "$limit/" ++ n' ++ "/" ++ f' ≠ "$limit/" ++ n ++ "/" ++ f := by
  intro heq
  have hlevels := congrArg (splitn 3) heq
  rw [splitn_limit hn, splitn_limit hn'] at hlevels
  simp only [List.cons.injEq] at hlevels
  exact hne hlevels.2.1

theorem plus_ne (n : String) : "+" ++ n ≠ n := by
  intro heq
  have hlength := congrArg String.length heq
  rw [String.length_append] at hlength
  have hone : "+".length = 1 := by decide
  omega

theorem plus_notMem {n : String} (hn : '/' ∉ n.toList) : '/' ∉ ("+" ++ n).toList := by
  rw [String.toList_append]
  exact not_mem_cons_of_ne_of_not_mem (by decide) hn

theorem exists_limit_one (hf : f ≠ "") (hs : (splitn 3 s).head? = some "$exclusive") :
    ∃ s', s' ≠ s ∧ parseTopicFilter s' true true = .ok (f, none, some 1) := by
  have hone : '/' ∉ "1".toList := by decide
  refine ⟨"$limit/" ++ "1" ++ "/" ++ f, ?_, (parse_limit hone).2 ⟨hf, 1, by decide, rfl⟩⟩
  rintro rfl
  rw [splitn_limit hone] at hs
  exact absurd (Option.some.inj hs) (by decide)

theorem exists_limit {n : String} {k : ℕ} (hn : '/' ∉ n.toList) (hf : f ≠ "")
    (hk : parseUnsigned UInt64.size n = .ok k) : ∃ s', s' ≠ "$limit/" ++ n ++ "/" ++ f ∧
      parseTopicFilter s' true true = .ok (f, none, some k) := by
  rcases parseUnsigned_eq_ok_iff.1 hk with ⟨hdecimal, hvalue, hlt⟩ | ⟨m, rfl, hdecimal, hvalue, hlt⟩
  · have hsigned := parseUnsigned_eq_ok_iff.2 (.inr ⟨n, rfl, hdecimal, hvalue, hlt⟩)
    exact ⟨_, limit_ne hn (plus_notMem hn) (plus_ne n),
      (parse_limit (plus_notMem hn)).2 ⟨hf, k, hsigned, rfl⟩⟩
  · have hunsigned := parseUnsigned_eq_ok_iff.2 (.inl ⟨hdecimal, hvalue, hlt⟩)
    exact ⟨_, limit_ne hn hdecimal.notMem_slash (plus_ne m).symm,
      (parse_limit hdecimal.notMem_slash).2 ⟨hf, k, hunsigned, rfl⟩⟩

/-- A filter that is accepted: with a limit, it has one of the two prefixes, and another filter has the
same result; without one, it is the group and the filter behind it, or the filter. -/
theorem accepted_cases {group : Option SharedGroup} {limit : Option ℕ}
    (h : parseTopicFilter s true true = .ok (f, group, limit)) : (limit ≠ none ∧
      ((splitn 3 s).head? = some "$limit" ∨ (splitn 3 s).head? = some "$exclusive") ∧
      ∃ s', s' ≠ s ∧ parseTopicFilter s' true true = .ok (f, group, limit)) ∨
    (limit = none ∧ (splitn 3 s).head? ≠ some "$limit" ∧ (splitn 3 s).head? ≠ some "$exclusive" ∧
      s = group.elim f ("$share/" ++ · ++ "/" ++ f)) := by
  cases shape s with
  | share group' f' hgroup hs =>
    subst hs
    obtain ⟨-, hr⟩ := (parse_share hgroup).1 h
    obtain ⟨rfl, rfl, rfl⟩ : f = f' ∧ group = some group' ∧ limit = none := by simpa using hr
    rw [splitn_share hgroup, head?_cons]
    exact .inr ⟨rfl, by decide, by decide, rfl⟩
  | limit n f' hn hs =>
    subst hs
    obtain ⟨hf, k, hk, hr⟩ := (parse_limit hn).1 h
    obtain ⟨rfl, rfl, rfl⟩ : f = f' ∧ group = none ∧ limit = some k := by simpa using hr
    refine .inl ⟨Option.some_ne_none k, .inl ?_, exists_limit hn hf hk⟩
    rw [splitn_limit hn]
    rfl
  | exclusive f' hs =>
    subst hs
    obtain ⟨hf, hr⟩ := (parse_exclusive f').1 h
    obtain ⟨rfl, rfl, rfl⟩ : f = trimStartMatches ("$exclusive/" ++ f') "$exclusive/" ∧
      group = none ∧ limit = some 1 := by simpa using hr
    obtain ⟨l, ls, hsplit⟩ := splitn_exclusive f'
    have hhead : (splitn 3 ("$exclusive/" ++ f')).head? = some "$exclusive" := by
      rw [hsplit, head?_cons]
    exact .inl ⟨Option.some_ne_none 1, .inr hhead, exists_limit_one hf hhead⟩
  | short a levels ha hsplit hshort => exact absurd h (parse_short ha hsplit hshort)
  | bare hs =>
    subst hs
    have hhead : (splitn 3 "$exclusive").head? = some "$exclusive" := by decide
    have hr := Except.ok.inj (h.symm.trans parse_bare)
    obtain ⟨rfl, rfl, rfl⟩ : f = "$exclusive" ∧ group = none ∧ limit = some 1 := by simpa using hr
    exact .inl ⟨Option.some_ne_none 1, .inr hhead, exists_limit_one (by decide) hhead⟩
  | plain a levels hsplit hshare hlimit hexclusive =>
    obtain ⟨-, hr⟩ := (parse_plain hsplit hshare hlimit hexclusive).1 h
    obtain ⟨rfl, rfl, rfl⟩ : f = s ∧ group = none ∧ limit = none := by simpa using hr
    rw [hsplit, head?_cons]
    exact .inr ⟨rfl, hlimit ∘ Option.some.inj, hexclusive ∘ Option.some.inj, rfl⟩

theorem unique_iff (s : TopicFilter) : Unique s ↔ Unlimited s := by
  constructor
  · rintro hunique ⟨f, group, limit⟩ h
    rcases accepted_cases h with ⟨-, -, s', hne, h'⟩ | ⟨-, hlimit, hexclusive, -⟩
    · exact absurd (hunique s' _ h h') hne
    · exact ⟨hlimit, hexclusive⟩
  · rintro hunlimited s' ⟨f, group, limit⟩ h h'
    obtain ⟨hlimit, hexclusive⟩ := hunlimited _ h
    rcases accepted_cases h with ⟨-, hhead, -⟩ | ⟨rfl, -, -, hs⟩
    · exact absurd hhead (not_or.2 ⟨hlimit, hexclusive⟩)
    rcases accepted_cases h' with ⟨hne, -⟩ | ⟨-, -, -, hs'⟩
    · exact absurd rfl hne
    · rw [hs, hs']

end Conforms

/-- A filter is read as it should be exactly if its levels conform, and it has its result for itself
exactly if it is rejected or has no limit. -/
theorem conforms_iff (s : TopicFilter) : (Conforms s ↔ LevelsConform s) ∧ (Unique s ↔ Unlimited s) :=
  ⟨conforms_iff_levels s, unique_iff s⟩

/-- Groups without a name or with wildcards are accepted, limits have signs and an end, several prefixes
are removed at once, filters next to the forms are rejected or limited, and results are not unique. -/
theorem prefix_misread :
    ¬ Conforms "$share//f" ∧ parseTopicFilter "$share//f" true true = .ok ("f", some "", none) ∧
    parseTopicFilter "$share/+/f" true true = .ok ("f", some "+", none) ∧
    parseTopicFilter "$limit/+5/f" true true = .ok ("f", none, some 5) ∧
    parseTopicFilter "$limit/18446744073709551616/f" true true =
      .error (.illegal "$limit/18446744073709551616/f") ∧
    parseTopicFilter "$exclusive/$exclusive/f" true true = .ok ("f", none, some 1) ∧
    parseTopicFilter "$exclusive" true true = .ok ("$exclusive", none, some 1) ∧
    parseTopicFilter "$share/g" true true = .error (.illegal "$share/g") ∧
    ¬ Unique "$limit/1/f" ∧ parseTopicFilter "$limit/1/f" true true = .ok ("f", none, some 1) ∧
    parseTopicFilter "$exclusive/f" true true = .ok ("f", none, some 1) := by
  have hgroup : ¬ Conforms "$share//f" := by
    have htext : "$share//f" = "$share/" ++ "" ++ "/" ++ "f" := by decide
    rw [htext, conforms_share (by decide)]
    exact fun h => h.elim (by decide) fun hname => hname.1 rfl
  have hlimit : parseTopicFilter "$limit/1/f" true true = .ok ("f", none, some 1) := by decide +kernel
  have hexclusive : parseTopicFilter "$exclusive/f" true true = .ok ("f", none, some 1) := by
    decide +kernel
  have hunique : ¬ Unique "$limit/1/f" := fun h => absurd (h _ _ hlimit hexclusive) (by decide)
  exact ⟨hgroup, by decide +kernel, by decide +kernel, by decide +kernel, by decide +kernel,
    by decide +kernel, by decide +kernel, by decide +kernel, hunique, hlimit, hexclusive⟩

end FerroMq
