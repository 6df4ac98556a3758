import FerroMq.Topic.Levels

/-!
# Filters within filters

Topic names can be put together from levels (`Topic.parsed_cons`), also from levels that a given list does not
have (`freshLevel`).  So filters are told apart by the topics they match: `reaches_imp_iff` says when all topics
of one filter are topics of another, level by level (`Within`).
-/

namespace FerroMq

open List

/-! ## Topic names from levels -/

theorem notMem_of_mem_splitOn {α : Type} [DecidableEq α] (x : α) (xs : List α) :
    ∀ l ∈ xs.splitOn x, x ∉ l := by
  induction xs with
  | nil => simp
  | cons y ys ih =>
    rw [List.splitOn, splitOnP_cons_eq_if_modifyHead]
    split_ifs with h
    · exact forall_mem_cons.2 ⟨not_mem_nil, ih⟩
    · have hne : x ≠ y := fun heq => h (by simp [heq])
      change ∀ l ∈ (ys.splitOn x).modifyHead (y :: ·), x ∉ l
      cases hsplit : ys.splitOn x with
      | nil => exact absurd hsplit (splitOn_ne_nil _ _)
      | cons l ls =>
        rw [hsplit, forall_mem_cons] at ih
        exact forall_mem_cons.2 ⟨not_mem_cons_of_ne_of_not_mem hne ih.1, ih.2⟩

def Level.IsPlain (l : Level) : Prop :=
  l.isWildcard = false ∧ ∃ s, '/' ∉ s.toList ∧ Level.fromStr s = .ok l

variable {l : Level} {t f : List Level}

theorem Topic.Parsed.levels_fromStr {t : Topic} (h : t.Parsed) (hl : l ∈ t.levels) :
    ∃ s, '/' ∉ s.toList ∧ Level.fromStr s = .ok l := by
  obtain ⟨text, htext⟩ := h
  have hparts := forall₂_of_fromStr htext
  obtain ⟨i, hi, rfl⟩ := getElem_of_mem hl
  have hi' : i < (splitLevels text).length := by rwa [hparts.length_eq]
  refine ⟨(splitLevels text)[i], ?_, hparts.get hi' hi⟩
  obtain ⟨part, hpart, heq⟩ := mem_map.1 (getElem_mem hi')
  rw [← heq, String.toList_ofList]
  exact notMem_of_mem_splitOn _ _ part hpart

theorem Topic.Parsed.isPlain {t : Topic} (h : t.Parsed) (hl : l ∈ t.levels)
    (hw : l.isWildcard = false) : l.IsPlain :=
  ⟨hw, h.levels_fromStr hl⟩

theorem Topic.parsed_cons {a : Level} (ha : a.IsPlain)
    (ht : ∀ l ∈ t, l.IsPlain ∧ l.isMetadata = false) : (⟨a :: t⟩ : Topic).Parsed := by
  have hall : ∀ l ∈ a :: t, l.IsPlain := forall_mem_cons.2 ⟨ha, fun l hl => (ht l hl).1⟩
  have hslash : ∀ part ∈ (a :: t).map fun l => l.toStr.toList, '/' ∉ part := by
    intro part hpart
    obtain ⟨l, hl, rfl⟩ := mem_map.1 hpart
    obtain ⟨-, s, hs, hl⟩ := hall l hl
    rwa [Level.toStr_fromStr hl]
  have hsplit : splitLevels (toStr ⟨a :: t⟩) = (a :: t).map Level.toStr := by
    rw [splitLevels, toStr, String.toList_ofList, splitOn_intercalate '/' hslash (by simp), map_map]
    simp
  refine ⟨toStr ⟨a :: t⟩, fromStr_eq_ok_iff.2 ⟨?_, fun i l hi => ?_⟩⟩
  · rw [hsplit]
    refine forall₂_map_left_iff.2 (forall₂_same.2 fun l hl => ?_)
    obtain ⟨-, s, -, hl⟩ := hall l hl
    exact Level.fromStr_toStr ⟨s, hl⟩
  · have hl := hall l (mem_of_getElem? hi)
    cases l with
    | multiWildcard => cases hl.1
    | metadata s =>
      cases i with
      | zero => rfl
      | succ i =>
        rw [getElem?_cons_succ] at hi
        cases (ht _ (mem_of_getElem? hi)).2
    | normal | blank | singleWildcard => rfl

theorem Topic.wildcardFree_cons {a : Level} (ha : a.IsPlain)
    (ht : ∀ l ∈ t, l.IsPlain ∧ l.isMetadata = false) : (⟨a :: t⟩ : Topic).wildcardFree = true := by
  rw [wildcardFree, all_eq_true]
  intro l hl
  rcases mem_cons.1 hl with rfl | hl
  · simp [ha.1]
  · simp [(ht l hl).1.1]

def TopicName.ofLevels {a : Level} {t : List Level} (ha : a.IsPlain)
    (ht : ∀ l ∈ t, l.IsPlain ∧ l.isMetadata = false) : TopicName :=
  ⟨⟨a :: t⟩, Topic.parsed_cons ha ht, Topic.wildcardFree_cons ha ht⟩

theorem TopicName.fromStr_toStr (t : TopicName) : Topic.fromStr t.1.toStr = .ok t.1 := by
  obtain ⟨s, hs⟩ := t.2.1
  rwa [Topic.toStr_fromStr hs]

/-! ## Levels that do not occur -/

def freshLetters (ls : List Level) : List Char :=
  List.replicate ((ls.map fun l => l.toStr.toList.length).sum + 1) 'x'

def freshLevel (ls : List Level) : Level := .normal (String.ofList (freshLetters ls))

def freshMetadata (ls : List Level) : Level := .metadata (String.ofList ('$' :: freshLetters ls))

theorem notMem_of_lt_length {ls : List Level}
    (h : (freshLetters ls).length ≤ l.toStr.toList.length) : l ∉ ls := by
  intro hmem
  have hle := single_le_sum (fun _ _ => Nat.zero_le _) _
    (mem_map_of_mem (f := fun l : Level => l.toStr.toList.length) hmem)
  rw [freshLetters, length_replicate] at h
  exact absurd (h.trans hle) (by omega)

variable (ls : List Level)

theorem freshLevel_notMem : freshLevel ls ∉ ls :=
  notMem_of_lt_length (by simp [freshLevel, Level.toStr])

theorem freshMetadata_notMem : freshMetadata ls ∉ ls :=
  notMem_of_lt_length (by simp [freshMetadata, Level.toStr])

theorem mem_freshLetters {ls : List Level} {c : Char} : c ∈ freshLetters ls ↔ c = 'x' := by
  simp [freshLetters]

theorem isPlain_freshLevel : (freshLevel ls).IsPlain := by
  have hmem : ∀ c ∈ freshLetters ls, c = 'x' := fun c hc => mem_freshLetters.1 hc
  have hhead : 'x' ∈ (String.ofList (freshLetters ls)).toList := by simp [mem_freshLetters]
  refine ⟨rfl, String.ofList (freshLetters ls), by simp [mem_freshLetters], ?_⟩
  have hw : hasWildcardChar (String.ofList (freshLetters ls)) = false := by
    rw [hasWildcardChar, String.toList_ofList, any_eq_false]
    intro c hc
    rw [hmem c hc]
    decide
  have hm : isMetadataStr (String.ofList (freshLetters ls)) = false := by
    rw [isMetadataStr, String.toList_ofList, decide_eq_false_iff_not]
    intro h
    exact absurd (hmem _ (mem_of_mem_head? h)) (by decide)
  have hne : ∀ s : String, 'x' ∉ s.toList → String.ofList (freshLetters ls) ≠ s :=
    fun s hs h => hs (h ▸ hhead)
  rw [Level.fromStr, if_neg (hne "+" (by decide)), if_neg (hne "#" (by decide)), if_neg (hne "" (by decide)),
    hw, hm]
  rfl

theorem isPlain_freshMetadata : (freshMetadata ls).IsPlain := by
  have hmem : ∀ c ∈ '$' :: freshLetters ls, c = '$' ∨ c = 'x' :=
    forall_mem_cons.2 ⟨.inl rfl, fun c hc => .inr (mem_freshLetters.1 hc)⟩
  have hhead : '$' ∈ (String.ofList ('$' :: freshLetters ls)).toList := by simp
  refine ⟨rfl, String.ofList ('$' :: freshLetters ls), by simp [mem_freshLetters], ?_⟩
  have hw : hasWildcardChar (String.ofList ('$' :: freshLetters ls)) = false := by
    rw [hasWildcardChar, String.toList_ofList, any_eq_false]
    intro c hc
    rcases hmem c hc with rfl | rfl <;> decide
  have hm : isMetadataStr (String.ofList ('$' :: freshLetters ls)) = true := by
    rw [isMetadataStr, String.toList_ofList]
    rfl
  have hne : ∀ s : String, '$' ∉ s.toList → String.ofList ('$' :: freshLetters ls) ≠ s :=
    fun s hs h => hs (h ▸ hhead)
  rw [Level.fromStr, if_neg (hne "+" (by decide)), if_neg (hne "#" (by decide)), if_neg (hne "" (by decide)),
    hw, hm]
  rfl

/-! ## Containment -/

/-- Level by level, the filter `f` (left) allows no more than `g` (right). -/
inductive Within : List Level → List Level → Prop
  | nil : Within [] []
  | multi (f : List Level) : Within f [.multiWildcard]
  | single {l : Level} {f g : List Level} :
      l ≠ .multiWildcard → Within f g → Within (l :: f) (.singleWildcard :: g)
  | exact {l : Level} {f g : List Level} : l.isWildcard = false → Within f g → Within (l :: f) (l :: g)

theorem Within.covers {g : List Level} (h : Within f g) (hf : Covers f t) : Covers g t := by
  induction h generalizing t with
  | nil => exact hf
  | multi f => exact .multi t
  | single hl _ ih =>
    cases hf with
    | multi => exact absurd rfl hl
    | single l hf => exact .single l (ih hf)
    | exact _ hf => exact .single _ (ih hf)
  | exact hl _ ih =>
    obtain ⟨t, rfl, hrest⟩ := (covers_plain_cons_iff hl).1 hf
    exact .exact hl (ih hrest)

def sample (x : Level) (f : List Level) : List Level := f.map fun l => if l.isWildcard then x else l

theorem covers_sample (x : Level) (h : MultiLast f) : Covers f (sample x f) := by
  induction f with
  | nil => exact .nil
  | cons l f ih =>
    cases l with
    | singleWildcard => exact .single x (ih h.tail)
    | multiWildcard =>
      obtain rfl := h.eq_nil
      exact .multi _
    | normal | metadata | blank => exact .exact rfl (ih h.tail)

/-- The levels of `t` are `x` or plain levels of `f`. -/
def Over (x : Level) (f t : List Level) : Prop := ∀ l ∈ t, l = x ∨ l ∈ f ∧ l.isWildcard = false

theorem over_sample (x : Level) (f : List Level) : Over x f (sample x f) := by
  intro l hl
  obtain ⟨k, hk, rfl⟩ := mem_map.1 hl
  split_ifs with hw
  · exact .inl rfl
  · exact .inr ⟨hk, Bool.eq_false_iff.2 hw⟩

theorem Over.cons {x a : Level} (h : Over x f t) : Over x (a :: f) t := fun l hl =>
  (h l hl).imp_right fun hf => ⟨mem_cons_of_mem _ hf.1, hf.2⟩

theorem within_cons {x a : Level} {g : List Level} (ha : a ≠ .multiWildcard) (hx : x ∉ g)
    (hf : MultiLast f) (h : ∀ t, Over x f t → Covers f t → Covers g ((if a.isWildcard then x else a) :: t))
    (ih : ∀ g, x ∉ g → (∀ t, Over x f t → Covers f t → Covers g t) → Within f g) : Within (a :: f) g := by
  have hsample := h _ (over_sample x f) (covers_sample x hf)
  cases hsample with
  | multi => exact .multi _
  | single _ hrest =>
    refine .single ha (ih _ (fun hmem => hx (mem_cons_of_mem _ hmem)) fun t ht hc => ?_)
    obtain ⟨l, t', heq, hc⟩ := covers_single_cons_iff.1 (h t ht hc)
    cases heq
    exact hc
  | @exact l g' _ hl hrest =>
    have haw : a.isWildcard = false := by
      by_contra haw
      rw [if_pos (by simpa using haw)] at hx
      exact hx mem_cons_self
    rw [haw, if_neg Bool.false_ne_true] at hl hx h ⊢
    refine .exact hl (ih _ (fun hmem => hx (mem_cons_of_mem _ hmem)) fun t ht hc => ?_)
    obtain ⟨t', heq, hc⟩ := (covers_plain_cons_iff hl).1 (h t ht hc)
    cases heq
    exact hc

/-- A filter is told apart from `g` by topics over its own levels and one that `g` does not have. -/
theorem within_of_forall {x : Level} {g : List Level} (hx : x ∉ g) (hf : MultiLast f)
    (h : ∀ t, Over x f t → Covers f t → Covers g t) : Within f g := by
  induction f generalizing g with
  | nil =>
    rcases covers_nil_right_iff.1 (h [] (by simp [Over]) .nil) with rfl | rfl
    · exact .nil
    · exact .multi _
  | cons a f ih =>
    by_cases ha : a = .multiWildcard
    · subst ha
      obtain rfl := hf.eq_nil
      rcases covers_nil_right_iff.1 (h [] (by simp [Over]) (.multi [])) with rfl | rfl
      · have hone := h [x] (by simp [Over]) (.multi [x])
        cases hone
      · exact .multi _
    · refine within_cons ha hx hf.tail (fun t ht hc => h _ ?_ ?_) fun g hx h => ih hx hf.tail h
      · refine forall_mem_cons.2 ⟨?_, ht.cons⟩
        split_ifs with hw
        · exact .inl rfl
        · exact .inr ⟨mem_cons_self, Bool.eq_false_iff.2 hw⟩
      · cases a with
        | multiWildcard => exact absurd rfl ha
        | singleWildcard => exact .single x hc
        | normal | metadata | blank => exact .exact rfl hc

/-- On topic names `#` is as good as `+/#`, as there is always a first level. -/
def Inside (f g : List Level) : Prop :=
  Within f g ∨ f = [.multiWildcard] ∧ g = [.singleWildcard, .multiWildcard]

theorem Inside.covers {g : List Level} (h : Inside f g) (ht : t ≠ []) (hf : Covers f t) : Covers g t := by
  rcases h with h | ⟨-, rfl⟩
  · exact h.covers hf
  · obtain ⟨l, t, rfl⟩ := exists_cons_of_ne_nil ht
    exact .single l (.multi t)

theorem not_shielded_of_plain (hl : l.isMetadata = false) : ¬ Shielded f (l :: t) := by
  rintro ⟨a, b, -, hb, -, hmeta⟩
  cases hb
  rw [hl] at hmeta
  cases hmeta

theorem head_of_matches {f t : Topic} (h : f.Matches t) {m : Level} (hm : t.levels.head? = some m)
    (hmeta : m.isMetadata = true) : f.levels.head? = some m := by
  obtain ⟨hcovers, hshield⟩ := h
  obtain ⟨t', ht⟩ := head?_eq_some_iff.1 hm
  rw [ht] at hcovers hshield
  generalize f.levels = ls at hcovers hshield ⊢
  cases hcovers with
  | multi | single => exact absurd ⟨_, m, rfl, rfl, rfl, hmeta⟩ hshield
  | exact => rfl

section

variable {sys : Bool} {f : Filter} {g : List Level}

theorem over_isPlain {x : Level} {ls t : List Level} (hx : x.IsPlain ∧ x.isMetadata = false)
    (hls : ∀ l ∈ ls, l.isMetadata = false ∧ ∃ s, '/' ∉ s.toList ∧ Level.fromStr s = .ok l) (ht : Over x ls t) :
    ∀ l ∈ t, l.IsPlain ∧ l.isMetadata = false := by
  intro l hl
  rcases ht l hl with rfl | ⟨hmem, hw⟩
  · exact hx
  · exact ⟨⟨hw, (hls l hmem).2⟩, (hls l hmem).1⟩

theorem Filter.tail_levels {a : Level} {ls : List Level} (h : f.1.levels = a :: ls) :
    ∀ l ∈ ls, l.isMetadata = false ∧ ∃ s, '/' ∉ s.toList ∧ Level.fromStr s = .ok l := fun l hl =>
  ⟨f.2.tail_metadata l (by rwa [h]), f.2.levels_fromStr (by rw [h]; exact .tail _ hl)⟩

theorem inside_of_forall (h : ∀ t : TopicName, f.1.Matches t.1 → Covers g t.1.levels) :
    Inside f.1.levels g := by
  obtain ⟨x, hx, hfresh⟩ : ∃ x, x ∉ g ∧ x.IsPlain ∧ x.isMetadata = false :=
    ⟨freshLevel g, freshLevel_notMem g, isPlain_freshLevel g, rfl⟩
  obtain ⟨a, ls, hlevels⟩ := exists_cons_of_ne_nil f.2.ne_nil
  have hlast : MultiLast (a :: ls) := hlevels ▸ f.2.multiLast
  unfold Topic.Matches at h
  rw [hlevels] at h ⊢
  by_cases ha : a = .multiWildcard
  · subst ha
    obtain rfl := hlast.eq_nil
    have htopic : ∀ t, (∀ l ∈ t, l = x) → Covers g (x :: t) := fun t ht =>
      h (TopicName.ofLevels hfresh.1 fun l hl => ht l hl ▸ hfresh) ⟨.multi _, not_shielded_of_plain hfresh.2⟩
    have hone := htopic [] (by simp)
    have htwo := htopic [x] (by simp)
    cases hone with
    | multi => exact .inl (.multi _)
    | single _ hnil =>
      rcases covers_nil_right_iff.1 hnil with rfl | rfl
      · obtain ⟨_, _, heq, htwo⟩ := covers_single_cons_iff.1 htwo
        cases heq
        cases htwo
      · exact .inr ⟨rfl, rfl⟩
    | exact => exact absurd mem_cons_self hx
  · refine .inl (within_cons ha hx hlast.tail (fun t ht hc => ?_)
      fun g' hx hc => within_of_forall hx hlast.tail hc)
    have hplain := over_isPlain hfresh (Filter.tail_levels hlevels) ht
    by_cases hw : a.isWildcard = true
    · rw [if_pos hw]
      obtain rfl : a = .singleWildcard := by cases a <;> simp_all [Level.isWildcard]
      exact h (TopicName.ofLevels hfresh.1 hplain) ⟨.single _ hc, not_shielded_of_plain hfresh.2⟩
    · rw [if_neg hw]
      have haw := Bool.eq_false_iff.2 hw
      refine h (TopicName.ofLevels (f.2.isPlain (by rw [hlevels]; exact .head _) haw) hplain)
        ⟨.exact haw hc, fun hs => ?_⟩
      rw [TopicName.ofLevels, shielded_cons_iff] at hs
      exact absurd hs.1 hw

theorem exists_matches_of_metadata {a : Level} (ha : f.1.levels.head? = some a) (hmeta : a.isMetadata = true) :
    ∃ t : TopicName, f.1.Matches t.1 ∧ t.1.levels.head? = some a := by
  obtain ⟨ls, hlevels⟩ := head?_eq_some_iff.1 ha
  have haw := isWildcard_of_isMetadata hmeta
  have hplain := over_isPlain ⟨isPlain_freshLevel [], rfl⟩ (Filter.tail_levels hlevels)
    (over_sample (freshLevel []) ls)
  have hlast : MultiLast (a :: ls) := hlevels ▸ f.2.multiLast
  have hcovers : Covers f.1.levels (a :: sample (freshLevel []) ls) := by
    rw [hlevels]
    exact .exact haw (covers_sample _ hlast.tail)
  have hshield : ¬ Shielded f.1.levels (a :: sample (freshLevel []) ls) := by
    rw [hlevels, shielded_cons_iff, haw]
    exact fun hs => nomatch hs.1
  have hplainHead : a.IsPlain := f.2.isPlain (by rw [hlevels]; exact .head _) haw
  exact ⟨TopicName.ofLevels hplainHead hplain, ⟨hcovers, hshield⟩, rfl⟩

/-- The filter `f` reaches the topic `t` in the comparison of a tree or, with `sys`, in the comparison with a
string, in which `+` and `+/#` also reach all topics that start with `$`. -/
def Reaches (sys : Bool) (f t : Topic) : Prop :=
  f.Matches t ∨ sys = true ∧ f.IsPlus ∧ t.isMetadata = true

theorem reaches_false_iff {f t : Topic} : Reaches false f t ↔ f.Matches t := by
  simp [Reaches]

/-- All topics of the filter `f` are topics of `g`: it lies within `g`, unless `g` reaches all topics that
start with `$` and `f` only reaches such. -/
def Contained (sys : Bool) (f g : Topic) : Prop :=
  sys = true ∧ g.IsPlus ∧ f.isMetadata = true ∨
    Inside f.levels g.levels ∧ ¬ Shielded g.levels f.levels ∧ (sys = true → f.IsPlus → g.IsPlus)

theorem isMetadata_iff {t : Topic} :
    t.isMetadata = true ↔ ∃ m, t.levels.head? = some m ∧ m.isMetadata = true := by
  rw [Topic.isMetadata, Option.any_eq_true]

theorem reaches_imp_iff {g : Topic} :
    (∀ t : TopicName, Reaches sys f.1 t.1 → Reaches sys g t.1) ↔ Contained sys f.1 g := by
  constructor
  · intro h
    by_cases hsys : (sys = true ∧ g.IsPlus) ∧ f.1.isMetadata = true
    · exact .inl ⟨hsys.1.1, hsys.1.2, hsys.2⟩
    right
    -- where `f` matches, the topics starting with `$` that all filters `+` reach are of no help
    have hmatch : ∀ t : TopicName, f.1.Matches t.1 → g.Matches t.1 := by
      intro t ht
      rcases h t (.inl ht) with hg | ⟨hs, hplus, hmeta⟩
      · exact hg
      · obtain ⟨m, hm, hmeta⟩ := isMetadata_iff.1 hmeta
        exact absurd ⟨⟨hs, hplus⟩, isMetadata_iff.2 ⟨m, head_of_matches ht hm hmeta, hmeta⟩⟩ hsys
    refine ⟨inside_of_forall fun t ht => (hmatch t ht).1, ?_, fun hs hplus => ?_⟩
    · rintro ⟨b, a, hb, ha, hw, hmeta⟩
      obtain ⟨t, ht, hhead⟩ := exists_matches_of_metadata ha hmeta
      exact (hmatch t ht).2 ⟨b, a, hb, hhead, hw, hmeta⟩
    · rcases h (TopicName.ofLevels (t := []) (isPlain_freshMetadata g.levels) (by simp))
        (.inr ⟨hs, hplus, rfl⟩) with hg | hg
      · have hhead := head_of_matches hg rfl rfl
        exact absurd (mem_of_mem_head? hhead) (freshMetadata_notMem _)
      · exact hg.2.1
  · rintro (⟨hs, hplus, hmeta⟩ | ⟨hinside, hshield, hplus⟩) t ht
    · right
      refine ⟨hs, hplus, ?_⟩
      rcases ht with ⟨hcovers, -⟩ | ht
      · obtain ⟨a, ha, hmeta⟩ := isMetadata_iff.1 hmeta
        obtain ⟨ls, hlevels⟩ := head?_eq_some_iff.1 ha
        rw [hlevels, covers_plain_cons_iff (isWildcard_of_isMetadata hmeta)] at hcovers
        obtain ⟨t', ht, -⟩ := hcovers
        exact isMetadata_iff.2 ⟨a, by rw [ht]; rfl, hmeta⟩
      · exact ht.2.2
    · rcases ht with ht | ⟨hs, hf, hmeta⟩
      · refine .inl ⟨hinside.covers t.2.1.ne_nil ht.1, ?_⟩
        rintro ⟨b, m, hb, hm, hw, hmeta⟩
        exact hshield ⟨b, m, hb, head_of_matches ht hm hmeta, hw, hmeta⟩
      · exact .inr ⟨hs, hplus hs hf, hmeta⟩

end

end FerroMq
