import FerroMq.Topic.TreeMatch

/-!
# Matching without a tree

`Topic::matches` and `Topic::matches_str` leave their loop when a leading `+` meets a level that starts with
`$`, as if the topic had ended there, so that `+` and `+/#` match (`matchesStr_iff_isMatch`).  In the comparison
with a parsed topic, an empty level of the filter matches any level (`matches_eq_matchesStr_iff`).
-/

namespace FerroMq

open Lib List

/-- `MatchLevel` -/
class MatchLevel (α : Type) where
  matchLevel : α → Level → Bool

export MatchLevel (matchLevel)

instance : MatchLevel Level where
  matchLevel
    | self, .normal lhs =>
      match self with
      | .normal rhs => lhs = rhs
      | _ => false
    | self, .metadata lhs =>
      match self with
      | .metadata rhs => lhs = rhs
      | _ => false
    | _, .blank => true
    | self, .singleWildcard | self, .multiWildcard => !self.isMetadata

instance : MatchLevel String where
  matchLevel
    | self, .normal lhs => !isMetadataStr self && lhs = self
    | self, .metadata lhs => isMetadataStr self && lhs = self
    | self, .blank => self = ""
    | self, .singleWildcard | self, .multiWildcard => !isMetadataStr self

def matchRest : List Level → Bool
  | .multiWildcard :: _ => true
  | _ :: _ => false
  | [] => true

def matchLevels {α : Type} [MatchLevel α] : List Level → List α → Bool
  | lhs, [] => matchRest lhs
  | [], _ :: _ => false
  | .singleWildcard :: lhs, rhs :: levels =>
    if matchLevel rhs .singleWildcard then matchLevels lhs levels else matchRest lhs
  | .multiWildcard :: _, rhs :: _ => matchLevel rhs .multiWildcard
  | level :: lhs, rhs :: levels => if matchLevel rhs level then matchLevels lhs levels else false

namespace Topic

def «matches» (self topic : Topic) : Bool := matchLevels self.levels topic.levels

def matchesStr (self : Topic) (topic : String) : Bool := matchLevels self.levels (splitLevels topic)

end Topic

/-! ## What the loop computes -/

/-- Level-by-level matching in which a plain level of the filter takes the levels it is related to. -/
inductive CoversBy (p : Level → Level → Prop) : List Level → List Level → Prop
  | nil : CoversBy p [] []
  | multi (t : List Level) : CoversBy p [.multiWildcard] t
  | single (l : Level) {f t : List Level} : CoversBy p f t → CoversBy p (.singleWildcard :: f) (l :: t)
  | plain {a l : Level} {f t : List Level} :
      a.isWildcard = false → p a l → CoversBy p f t → CoversBy p (a :: f) (l :: t)

/-- How the elements `α` of a topic are compared: `r` stands for the level `l`. -/
structure Compares {α : Type} [MatchLevel α] (p : Level → Level → Prop) (r : α) (l : Level) : Prop where
  plain : ∀ a : Level, (∃ s, Level.fromStr s = .ok a) → a.isWildcard = false →
    (matchLevel r a = true ↔ p a l)
  single : matchLevel r .singleWildcard = !l.isMetadata
  multi : matchLevel r .multiWildcard = !l.isMetadata

theorem matchRest_iff {f : List Level} (h : MultiLast f) :
    matchRest f = true ↔ f = [] ∨ f = [.multiWildcard] := by
  match f, h with
  | [], _ => simp [matchRest]
  | a :: f, h => cases a <;> simp [matchRest]; exact h.eq_nil

section

variable {α : Type} [MatchLevel α] {p : Level → Level → Prop}

theorem matchLevels_plain {a : Level} (h : a.isWildcard = false) (f : List Level) (r : α) (rs : List α) :
    matchLevels (a :: f) (r :: rs) = (matchLevel r a && matchLevels f rs) := by
  cases a with
  | normal | metadata | blank =>
    rw [matchLevels]
    split_ifs with hmatch <;> simp [hmatch]
    all_goals exact nofun
  | singleWildcard | multiWildcard => exact nomatch h

theorem coversBy_nil_right_iff {f : List Level} :
    CoversBy p f [] ↔ f = [] ∨ f = [.multiWildcard] := by
  constructor
  · intro h
    cases h with
    | nil => exact .inl rfl
    | multi => exact .inr rfl
  · rintro (rfl | rfl)
    · exact .nil
    · exact .multi []

theorem coversBy_plain_iff {a l : Level} (h : a.isWildcard = false) {f t : List Level} :
    CoversBy p (a :: f) (l :: t) ↔ p a l ∧ CoversBy p f t := by
  constructor
  · intro hc
    cases hc with
    | multi | single => exact nomatch h
    | plain _ hp hc => exact ⟨hp, hc⟩
  · rintro ⟨hp, hc⟩
    exact .plain h hp hc

theorem matchLevels_iff_coversBy {f : List Level} (hf : ∀ a ∈ f, ∃ s, Level.fromStr s = .ok a)
    (hlast : MultiLast f) {rs : List α} {ls : List Level} (h : List.Forall₂ (Compares p) rs ls)
    (hmeta : ∀ l ∈ ls, l.isMetadata = false) : matchLevels f rs = true ↔ CoversBy p f ls := by
  induction h generalizing f with
  | nil => rw [matchLevels, matchRest_iff hlast, coversBy_nil_right_iff]
  | @cons r l rs ls hr _ ih =>
    have hl := hmeta l mem_cons_self
    have ih' {a f} (hf : ∀ b ∈ a :: f, ∃ s, Level.fromStr s = .ok b) (hlast : MultiLast (a :: f)) :=
      ih (fun b hb => hf b (mem_cons_of_mem a hb)) hlast.tail
        fun l' hl' => hmeta l' (mem_cons_of_mem l hl')
    match f, hf, hlast with
    | [], _, _ => exact iff_of_false (nomatch ·) (nomatch ·)
    | .singleWildcard :: f, hf, hlast =>
      rw [matchLevels, hr.single, hl, Bool.not_false, if_pos rfl, ih' hf hlast]
      refine ⟨fun hc => .single l hc, fun hc => ?_⟩
      cases hc with
      | single _ hc => exact hc
      | plain hw => exact nomatch hw
    | .multiWildcard :: f, hf, hlast =>
      obtain rfl := hlast.eq_nil
      rw [matchLevels, hr.multi, hl]
      exact iff_of_true rfl (.multi _)
    | .normal s :: f, hf, hlast | .metadata s :: f, hf, hlast | .blank :: f, hf, hlast =>
      rw [matchLevels_plain rfl, Bool.and_eq_true, hr.plain _ (hf _ mem_cons_self) rfl,
        ih' hf hlast, coversBy_plain_iff rfl]

/-- The filters that match as soon as the loop is left at their first level. -/
def Topic.IsPlus (f : Topic) : Prop :=
  f.levels = [.singleWildcard] ∨ f.levels = [.singleWildcard, .multiWildcard]

instance (f : Topic) : Decidable f.IsPlus := inferInstanceAs (Decidable (_ ∨ _))

theorem matchLevels_iff {f : Topic} (hf : ∀ a ∈ f.levels, ∃ s, Level.fromStr s = .ok a)
    (hlast : MultiLast f.levels) {rs : List α} {ls : List Level}
    (h : List.Forall₂ (Compares p) rs ls) (hmeta : ∀ l ∈ ls.tail, l.isMetadata = false) :
    matchLevels f.levels rs = true ↔ CoversBy p f.levels ls ∧ ¬ Shielded f.levels ls ∨
      Shielded f.levels ls ∧ f.IsPlus := by
  have hcovers (hall : ∀ l ∈ ls, l.isMetadata = false) :
      matchLevels f.levels rs = true ↔ CoversBy p f.levels ls ∧ ¬ Shielded f.levels ls ∨
        Shielded f.levels ls ∧ f.IsPlus := by
    have hshield : ¬ Shielded f.levels ls := by
      rintro ⟨a, b, -, hb, -, hmb⟩
      rw [hall b (mem_of_mem_head? hb)] at hmb
      exact nomatch hmb
    rw [matchLevels_iff_coversBy hf hlast h hall]
    exact ⟨fun hc => .inl ⟨hc, hshield⟩, fun hc => (hc.resolve_right fun h' => hshield h'.1).1⟩
  obtain ⟨f⟩ := f
  cases h with
  | nil => exact hcovers nofun
  | @cons r l rs ls hr hrs =>
    cases hl : l.isMetadata with
    | false =>
      refine hcovers fun l' hl' => ?_
      rcases mem_cons.1 hl' with rfl | hl'
      · exact hl
      · exact hmeta l' hl'
    | true =>
      -- only the first level can be related to a level that starts with `$`
      match f, hf, hlast with
      | [], _, _ =>
        refine iff_of_false (nomatch ·) ?_
        rintro (⟨hc, -⟩ | ⟨⟨a, b, ha, -⟩, -⟩)
        · exact nomatch hc
        · exact nomatch ha
      | .singleWildcard :: f, hf, hlast =>
        have hshield : Shielded (.singleWildcard :: f) (l :: ls) := shielded_cons_iff.2 ⟨rfl, hl⟩
        rw [matchLevels, hr.single, hl, Bool.not_true, if_neg (nomatch ·), matchRest_iff hlast.tail]
        simp [hshield, Topic.IsPlus]
      | .multiWildcard :: f, hf, hlast =>
        have hshield : Shielded (.multiWildcard :: f) (l :: ls) := shielded_cons_iff.2 ⟨rfl, hl⟩
        rw [matchLevels, hr.multi, hl]
        simp [hshield, Topic.IsPlus]
      | .normal s :: f, hf, hlast | .metadata s :: f, hf, hlast | .blank :: f, hf, hlast =>
        rw [matchLevels_plain rfl, Bool.and_eq_true, hr.plain _ (hf _ mem_cons_self) rfl,
          matchLevels_iff_coversBy (fun b hb => hf b (mem_cons_of_mem _ hb)) hlast.tail hrs hmeta,
          coversBy_plain_iff rfl]
        simp [shielded_cons_iff, Level.isWildcard]

end

/-! ## The two comparisons -/

theorem Level.fromStr_toStr {a : Level} (h : ∃ s, fromStr s = .ok a) : fromStr a.toStr = .ok a := by
  obtain ⟨s, hs⟩ := h
  rwa [toStr_fromStr hs]

theorem matchLevel_string_iff {a : Level} (ha : ∃ s, Level.fromStr s = .ok a)
    (hplain : a.isWildcard = false) (s : String) :
    matchLevel s a = true ↔ s = a.toStr := by
  obtain ⟨s', hs'⟩ := ha
  have hmeta := Level.fromStr_isMetadata hs'
  rw [← Level.toStr_fromStr hs'] at hmeta
  cases a with
  | normal x =>
    change (!isMetadataStr s && decide (x = s)) = true ↔ s = x
    rw [Bool.and_eq_true, decide_eq_true_eq, eq_comm (a := s)]
    refine and_iff_right_of_imp ?_
    rintro rfl
    exact congrArg not hmeta.symm
  | metadata x =>
    change (isMetadataStr s && decide (x = s)) = true ↔ s = x
    rw [Bool.and_eq_true, decide_eq_true_eq, eq_comm (a := s)]
    refine and_iff_right_of_imp ?_
    rintro rfl
    exact hmeta.symm
  | blank => exact decide_eq_true_iff
  | singleWildcard | multiWildcard => exact nomatch hplain

theorem compares_string {s : String} {l : Level} (h : Level.fromStr s = .ok l) : Compares Eq s l where
  plain a ha hplain := by
    rw [matchLevel_string_iff ha hplain]
    constructor
    · rintro rfl
      exact Except.ok.inj ((Level.fromStr_toStr ha).symm.trans h)
    · rintro rfl
      exact (Level.toStr_fromStr h).symm
  single := congrArg not (Level.fromStr_isMetadata h).symm
  multi := congrArg not (Level.fromStr_isMetadata h).symm

/-- In the comparison with a level, an empty level of the filter takes anything. -/
def BlankOrEq (a l : Level) : Prop := a = .blank ∨ a = l

theorem compares_level (l : Level) : Compares BlankOrEq l l where
  plain a _ hplain := by
    cases a with
    | normal x | metadata x => cases l <;> simp [matchLevel, BlankOrEq]
    | blank => exact iff_of_true rfl (.inl rfl)
    | singleWildcard | multiWildcard => exact nomatch hplain
  single := rfl
  multi := rfl

theorem Covers.coversBy {p : Level → Level → Prop} (hp : ∀ a, p a a) {f t : List Level} (h : Covers f t) :
    CoversBy p f t := by
  induction h with
  | nil => exact .nil
  | multi t => exact .multi t
  | single l _ ih => exact .single l ih
  | exact hw _ ih => exact .plain hw (hp _) ih

theorem coversBy_eq_iff {f t : List Level} : CoversBy Eq f t ↔ Covers f t := by
  refine ⟨fun h => ?_, Covers.coversBy fun _ => rfl⟩
  induction h with
  | nil => exact .nil
  | multi t => exact .multi t
  | single l _ ih => exact .single l ih
  | plain hw heq _ ih =>
    subst heq
    exact .exact hw ih

/-- An empty level of the filter stands against a level of the topic that is not empty. -/
def BlankMeets (f t : List Level) : Prop := ∃ x ∈ f.zip t, x.1 = .blank ∧ x.2 ≠ .blank

instance (f t : List Level) : Decidable (BlankMeets f t) := inferInstanceAs (Decidable (∃ _ ∈ _, _))

theorem blankMeets_cons_iff {a b : Level} {f t : List Level} :
    BlankMeets (a :: f) (b :: t) ↔ a = .blank ∧ b ≠ .blank ∨ BlankMeets f t := by
  simp only [BlankMeets, zip_cons_cons, mem_cons, or_and_right, exists_or, exists_eq_left]

theorem not_blankMeets_of_covers {f t : List Level} (h : Covers f t) : ¬ BlankMeets f t := by
  induction h with
  | nil => exact fun ⟨_, hx, _⟩ => nomatch hx
  | multi t =>
    rintro ⟨⟨a, b⟩, hx, rfl, -⟩
    exact nomatch mem_singleton.1 (of_mem_zip hx).1
  | single l _ ih =>
    rw [blankMeets_cons_iff]
    exact fun h => ih (h.resolve_left fun h => nomatch h.1)
  | exact _ _ ih =>
    rw [blankMeets_cons_iff]
    exact fun h => ih (h.resolve_left fun h => h.2 h.1)

theorem CoversBy.covers {f t : List Level} (h : CoversBy BlankOrEq f t) (hmeets : ¬ BlankMeets f t) :
    Covers f t := by
  induction h with
  | nil => exact .nil
  | multi t => exact .multi t
  | single l _ ih => exact .single l (ih fun h => hmeets (blankMeets_cons_iff.2 (.inr h)))
  | @plain a l f t hw hp _ ih =>
    have hrest := ih fun h => hmeets (blankMeets_cons_iff.2 (.inr h))
    obtain rfl : a = l := by
      rcases hp with rfl | hal
      · by_contra hne
        exact hmeets (blankMeets_cons_iff.2 (.inl ⟨rfl, Ne.symm hne⟩))
      · exact hal
    exact .exact hw hrest

theorem Filter.levels_fromStr (f : Filter) : ∀ a ∈ f.1.levels, ∃ s, Level.fromStr s = .ok a := by
  obtain ⟨t, s, hs⟩ := f
  intro a ha
  obtain ⟨i, hi, rfl⟩ := getElem_of_mem ha
  have h := Topic.forall₂_of_fromStr hs
  exact ⟨_, List.Forall₂.get h (by rwa [h.length_eq]) hi⟩

theorem Topic.Parsed.tail_metadata {t : Topic} (h : t.Parsed) :
    ∀ l ∈ t.levels.tail, l.isMetadata = false := by
  intro l hl
  obtain ⟨i, hi⟩ := getElem?_of_mem hl
  rw [getElem?_tail] at hi
  cases l with
  | metadata x => exact nomatch h.metadata_first hi
  | _ => rfl

/-- The topic's first level starts with `$`. -/
def Topic.isMetadata (t : Topic) : Bool := t.levels.head?.any Level.isMetadata

section

variable {f : Filter} {s : String} {t : Topic}

theorem shielded_and_isPlus_iff :
    Shielded f.1.levels t.levels ∧ f.1.IsPlus ↔ f.1.IsPlus ∧ t.isMetadata = true := by
  rw [and_comm]
  refine and_congr_right fun hplus => ?_
  have hhead : f.1.levels.head? = some .singleWildcard := by
    rcases hplus with h | h <;> rw [h] <;> rfl
  rw [Topic.isMetadata, Option.any_eq_true]
  constructor
  · rintro ⟨a, b, -, hb, -, hmeta⟩
    exact ⟨b, hb, hmeta⟩
  · rintro ⟨b, hb, hmeta⟩
    exact ⟨_, b, hhead, hb, rfl, hmeta⟩

/-- The comparison with the string finds the topics of the filter and, for `+` and `+/#`, those that
start with `$`. -/
theorem Filter.matchesStr_iff (f : Filter) (h : Topic.fromStr s = .ok t) :
    f.1.matchesStr s = true ↔ f.1.Matches t ∨ f.1.IsPlus ∧ t.isMetadata = true := by
  have hcompares := (Topic.forall₂_of_fromStr h).imp fun _ _ => compares_string
  rw [Topic.matchesStr, matchLevels_iff f.levels_fromStr f.2.multiLast hcompares
    (Topic.Parsed.tail_metadata ⟨s, h⟩), coversBy_eq_iff, shielded_and_isPlus_iff, Topic.Matches]

theorem Filter.matches_iff (f : Filter) (h : t.Parsed) :
    f.1.«matches» t = true ↔ CoversBy BlankOrEq f.1.levels t.levels ∧ ¬ Shielded f.1.levels t.levels ∨
      f.1.IsPlus ∧ t.isMetadata = true := by
  have hcompares : List.Forall₂ (Compares BlankOrEq) t.levels t.levels :=
    forall₂_same.2 fun l _ => compares_level l
  rw [Topic.«matches», matchLevels_iff f.levels_fromStr f.2.multiLast hcompares h.tail_metadata,
    shielded_and_isPlus_iff]

end

/-- The comparison with the string agrees with a tree that holds the filter, except for the filters `+`
and `+/#` and the topics that start with `$`. -/
theorem matchesStr_iff_isMatch {V : Type} [LinearOrder V] (f : Filter) (v : V) {s : String} {t : Topic}
    (h : Topic.fromStr s = .ok t) (hplain : t.wildcardFree = true) :
    (f.1.matchesStr s = true ↔ (TopicTree.insert Trie.empty f.1 v).1.isMatch t = true) ↔
      ¬ (f.1.IsPlus ∧ t.isMetadata = true) := by
  rw [TopicTree.isMatch_insert_empty f.1 v (TopicTree.wildcardFree_levels ⟨t, ⟨s, h⟩, hplain⟩),
    f.matchesStr_iff h]
  constructor
  · intro hiff hplus
    have hshield := (shielded_and_isPlus_iff.2 hplus).1
    exact (hiff.1 (.inr hplus)).2 hshield
  · intro hplus
    exact or_iff_left hplus

/-- The filter `+/a` and the topic `$SYS/a`. -/
theorem matchesStr_iff_isMatch_sys :
    (Topic.matchesStr ⟨[.singleWildcard, .normal "a"]⟩ "$SYS/a" = true ↔
      (TopicTree.insert Trie.empty ⟨[.singleWildcard, .normal "a"]⟩ 0).1.isMatch
        ⟨[.metadata "$SYS", .normal "a"]⟩ = true) :=
  (matchesStr_iff_isMatch ⟨⟨[.singleWildcard, .normal "a"]⟩, "+/a", by decide +kernel⟩ 0
    (t := ⟨[.metadata "$SYS", .normal "a"]⟩) (by decide +kernel) (by decide)).2 (by decide)

theorem plus_matchesStr_sys :
    Topic.fromStr "+" = .ok ⟨[.singleWildcard]⟩ ∧ Topic.fromStr "$SYS" = .ok ⟨[.metadata "$SYS"]⟩ ∧
      Topic.matchesStr ⟨[.singleWildcard]⟩ "$SYS" = true ∧
      (TopicTree.insert Trie.empty ⟨[.singleWildcard]⟩ 0).1.isMatch ⟨[.metadata "$SYS"]⟩ = false := by
  decide +kernel

/-- The comparison with a parsed topic agrees with the comparison with its string, except where the
filter matches only because one of its empty levels takes a level that is not empty. -/
theorem matches_eq_matchesStr_iff (f : Filter) {s : String} {t : Topic} (h : Topic.fromStr s = .ok t) :
    f.1.«matches» t = f.1.matchesStr s ↔
      ¬ (CoversBy BlankOrEq f.1.levels t.levels ∧ ¬ Shielded f.1.levels t.levels ∧
        BlankMeets f.1.levels t.levels) := by
  rw [Bool.eq_iff_iff, f.matches_iff ⟨s, h⟩, f.matchesStr_iff h, Topic.Matches]
  constructor
  · rintro hiff ⟨hcovers, hshield, hmeets⟩
    rcases hiff.1 (.inl ⟨hcovers, hshield⟩) with ⟨hc, -⟩ | hplus
    · exact not_blankMeets_of_covers hc hmeets
    · exact hshield (shielded_and_isPlus_iff.2 hplus).1
  · intro hcond
    refine or_congr_left (and_congr_left fun hshield => ⟨fun hc => ?_, Covers.coversBy fun _ => .inr rfl⟩)
    exact hc.covers fun hmeets => hcond ⟨hc, hshield, hmeets⟩

/-- The filter `/+` and the topic `/a`. -/
theorem matches_eq_matchesStr_blank :
    Topic.«matches» ⟨[.blank, .singleWildcard]⟩ ⟨[.blank, .normal "a"]⟩ =
      Topic.matchesStr ⟨[.blank, .singleWildcard]⟩ "/a" :=
  (matches_eq_matchesStr_iff ⟨⟨[.blank, .singleWildcard]⟩, "/+", by decide +kernel⟩
    (t := ⟨[.blank, .normal "a"]⟩) (by decide +kernel)).2 fun h => absurd h.2.2 (by decide)

theorem blank_matches_normal :
    Topic.fromStr "/a" = .ok ⟨[.blank, .normal "a"]⟩ ∧
      Topic.fromStr "x/a" = .ok ⟨[.normal "x", .normal "a"]⟩ ∧
      Topic.«matches» ⟨[.blank, .normal "a"]⟩ ⟨[.normal "x", .normal "a"]⟩ = true ∧
      Topic.matchesStr ⟨[.blank, .normal "a"]⟩ "x/a" = false := by
  decide +kernel

end FerroMq
