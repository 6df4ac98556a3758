import FerroMq.Lib.Wire

/-!
# Topics

The levels of a topic, their parser and the validity rules of `topic.rs`.  `Topic.fromStr` splits a string at
every `/`, parses each part and then checks the whole topic (`accepts_iff_and_prints`).
-/

namespace FerroMq

open Lib

inductive TopicError
  | invalidTopic (s : String)
  | invalidLevel (s : String)
  deriving DecidableEq, Repr

/-- One segment of a topic. -/
inductive Level
  | normal (s : String)
  | metadata (s : String)
  | blank
  | singleWildcard
  | multiWildcard
  deriving DecidableEq, Repr

def hasWildcardChar (s : String) : Bool := s.toList.any fun c => c = '+' || c = '#'

def isMetadataStr (s : String) : Bool := s.toList.head? = some '$'

namespace Level

def isMetadata : Level → Bool
  | metadata _ => true
  | _ => false

def isWildcard : Level → Bool
  | singleWildcard | multiWildcard => true
  | _ => false

def isValid : Level → Bool
  | normal s => !isMetadataStr s && !hasWildcardChar s
  | metadata s => isMetadataStr s && !hasWildcardChar s
  | _ => true

def fromStr (s : String) : Except TopicError Level :=
  if s = "+" then .ok singleWildcard
  else if s = "#" then .ok multiWildcard
  else if s = "" then .ok blank
  else if hasWildcardChar s then .error (.invalidLevel ("invalid level `" ++ s ++ "` contains +|#"))
  else if isMetadataStr s then .ok (metadata s)
  else .ok (normal s)

def toStr : Level → String
  | normal s | metadata s => s
  | blank => ""
  | singleWildcard => "+"
  | multiWildcard => "#"

theorem toStr_fromStr {s : String} {l : Level} (h : fromStr s = .ok l) : l.toStr = s := by
  unfold fromStr at h
  split_ifs at h with h₁ h₂ h₃ <;> cases h
  · exact h₁.symm
  · exact h₂.symm
  · exact h₃.symm
  · rfl
  · rfl

theorem fromStr_isMetadata {s : String} {l : Level} (h : fromStr s = .ok l) :
    l.isMetadata = isMetadataStr s := by
  unfold fromStr at h
  split_ifs at h with h₁ h₂ h₃ h₄ h₅ <;> cases h
  · subst h₁; decide
  · subst h₂; decide
  · subst h₃; decide
  · simp [isMetadata, h₅]
  · simp [isMetadata, h₅]

theorem isValid_of_fromStr {s : String} {l : Level} (h : fromStr s = .ok l) : l.isValid = true := by
  unfold fromStr at h
  split_ifs at h with h₁ h₂ h₃ h₄ h₅ <;> cases h
  · rfl
  · rfl
  · rfl
  · simp [isValid, h₄, h₅]
  · simp [isValid, h₄, h₅]

theorem fromStr_ok_iff {s : String} :
    (∃ l, fromStr s = .ok l) ↔ '+' ∉ s.toList ∧ '#' ∉ s.toList ∨ s = "+" ∨ s = "#" := by
  have hchar : hasWildcardChar s = true ↔ ¬ ('+' ∉ s.toList ∧ '#' ∉ s.toList) := by
    simp [hasWildcardChar, and_or_left, exists_or, imp_iff_not_or]
  unfold fromStr
  split_ifs <;> simp_all

end Level

structure Topic where
  levels : List Level
  deriving DecidableEq, Repr

namespace Topic

/-- The position rule of one level: `#` stands last and a metadata level first. -/
def misplaced (len : ℕ) : Level × ℕ → Bool
  | (.multiWildcard, pos) => pos ≠ len - 1
  | (.metadata _, pos) => pos ≠ 0
  | _ => false

def isValid (t : Topic) : Bool :=
  ((t.levels.findIdx? fun l => !l.isValid).or
    (t.levels.zipIdx.findIdx? (misplaced t.levels.length))).isNone

def splitLevels (s : String) : List String := (s.toList.splitOn '/').map String.ofList

def fromStr (s : String) : Except TopicError Topic := do
  let levels ← (splitLevels s).mapM Level.fromStr
  let topic : Topic := ⟨levels⟩
  if topic.isValid then .ok topic else .error (.invalidTopic ("invalid topic `" ++ s ++ "`"))

def toStr (t : Topic) : String :=
  String.ofList (['/'].intercalate (t.levels.map fun l => l.toStr.toList))

def wildcardFree (t : Topic) : Bool := t.levels.all fun l => !l.isWildcard

/-- The topics that the parser produces. -/
def Parsed (t : Topic) : Prop := ∃ s, fromStr s = .ok t

theorem isValid_iff (t : Topic) : t.isValid = true ↔
    (∀ l ∈ t.levels, l.isValid = true) ∧
      ∀ i l, t.levels[i]? = some l → misplaced t.levels.length (l, i) = false := by
  simp only [isValid, Option.isNone_iff_eq_none, Option.or_eq_none_iff, List.findIdx?_eq_none_iff,
    Bool.not_eq_eq_eq_not, Bool.not_false, Prod.forall, List.mem_zipIdx_iff_getElem?]
  exact and_congr_right fun _ => forall_comm

variable {s : String} {t : Topic}

theorem fromStr_eq_ok_iff : fromStr s = .ok t ↔
    List.Forall₂ (fun part l => Level.fromStr part = .ok l) (splitLevels s) t.levels ∧
      ∀ i l, t.levels[i]? = some l → misplaced t.levels.length (l, i) = false := by
  rw [fromStr, bind_eq_ok_iff]
  constructor
  · rintro ⟨ls, hls, h⟩
    dsimp only at h
    split_ifs at h with hvalid
    cases h
    exact ⟨mapM_eq_ok_iff.1 hls, ((isValid_iff _).1 hvalid).2⟩
  · rintro ⟨hparts, hplaced⟩
    refine ⟨t.levels, mapM_eq_ok_iff.2 hparts, if_pos ((isValid_iff t).2 ⟨fun l hl => ?_, hplaced⟩)⟩
    obtain ⟨i, hi, rfl⟩ := List.getElem_of_mem hl
    exact Level.isValid_of_fromStr (hparts.get (by rwa [hparts.length_eq]) hi)

theorem forall₂_of_fromStr (h : fromStr s = .ok t) :
    List.Forall₂ (fun part l => Level.fromStr part = .ok l) (splitLevels s) t.levels :=
  (fromStr_eq_ok_iff.1 h).1

theorem map_toStr_levels (h : fromStr s = .ok t) : t.levels.map Level.toStr = splitLevels s := by
  have hparts := forall₂_of_fromStr h
  generalize splitLevels s = parts, t.levels = ls at hparts ⊢
  induction hparts with
  | nil => rfl
  | cons hl _ ih => rw [List.map_cons, Level.toStr_fromStr hl, ih]

theorem toStr_fromStr (h : fromStr s = .ok t) : t.toStr = s := by
  have hls : t.levels.map (fun l => l.toStr.toList) = s.toList.splitOn '/' := by
    rw [← Function.comp_def, ← List.map_map, map_toStr_levels h, splitLevels, List.map_map]
    simp
  rw [toStr, hls, List.intercalate_splitOn, String.ofList_toList]

theorem misplaced_eq_false_iff {part : String} {l : Level} (h : Level.fromStr part = .ok l) (len pos : ℕ) :
    misplaced len (l, pos) = false ↔
      (part = "#" → pos = len - 1) ∧ (part.toList.head? = some '$' → pos = 0) := by
  unfold Level.fromStr at h
  split_ifs at h with h₁ h₂ h₃ h₄ h₅ <;> cases h
  · simp [misplaced, h₁]
  · simp [misplaced, h₂]
  · simp [misplaced, h₃]
  · simp [misplaced, h₂, of_decide_eq_true h₅]
  · simp [misplaced, h₂, of_decide_eq_false (Bool.eq_false_of_not_eq_true h₅)]

/-- The parser accepts a string exactly if `+` and `#` stand alone in their levels, `#` in the last one and `$` at the
start of the first one only, and the topic is printed as this string. -/
theorem accepts_iff_and_prints (s : String) :
    ((∃ t, fromStr s = .ok t) ↔ ∀ i l, (splitLevels s)[i]? = some l →
      ('+' ∉ l.toList ∧ '#' ∉ l.toList ∨ l = "+" ∨ l = "#") ∧
        (l = "#" → i = (splitLevels s).length - 1) ∧ (l.toList.head? = some '$' → i = 0)) ∧
      ∀ t, fromStr s = .ok t → t.toStr = s := by
  refine ⟨⟨?_, fun h => ?_⟩, fun t h => toStr_fromStr h⟩
  · rintro ⟨t, h⟩ i part hi
    obtain ⟨hparts, hplaced⟩ := fromStr_eq_ok_iff.1 h
    obtain ⟨hlt, rfl⟩ := List.getElem?_eq_some_iff.1 hi
    have hlt' : i < t.levels.length := hparts.length_eq ▸ hlt
    have hlevel : Level.fromStr (splitLevels s)[i] = .ok t.levels[i] := hparts.get hlt hlt'
    refine ⟨Level.fromStr_ok_iff.1 ⟨_, hlevel⟩, ?_⟩
    rw [← misplaced_eq_false_iff hlevel, hparts.length_eq]
    exact hplaced i _ (List.getElem?_eq_getElem hlt')
  · let level (part : String) : Level := (Level.fromStr part).toOption.getD .blank
    have hlevel (i : ℕ) (part : String) (hi : (splitLevels s)[i]? = some part) :
        Level.fromStr part = .ok (level part) := by
      obtain ⟨l, hl⟩ := Level.fromStr_ok_iff.2 (h i part hi).1
      simp only [level, hl]
      rfl
    refine ⟨⟨(splitLevels s).map level⟩, fromStr_eq_ok_iff.2 ⟨?_, fun i l hi => ?_⟩⟩
    · refine List.forall₂_map_right_iff.2 (List.forall₂_same.2 fun part hpart => ?_)
      obtain ⟨i, hi⟩ := List.getElem?_of_mem hpart
      exact hlevel i part hi
    · rw [List.getElem?_map, Option.map_eq_some_iff] at hi
      obtain ⟨part, hi, rfl⟩ := hi
      rw [misplaced_eq_false_iff (hlevel i part hi), List.length_map]
      exact (h i part hi).2

theorem fromStr_injective {s' : String} {t' : Topic} (h : fromStr s = .ok t)
    (h' : fromStr s' = .ok t') (hlevels : t.levels = t'.levels) : s = s' := by
  obtain rfl : t = t' := congrArg Topic.mk hlevels
  rw [← toStr_fromStr h, ← toStr_fromStr h']

theorem Parsed.ne_nil (h : t.Parsed) : t.levels ≠ [] := by
  obtain ⟨s, hs⟩ := h
  have hlen := (forall₂_of_fromStr hs).length_eq.symm
  have hne : splitLevels s ≠ [] := by simp [splitLevels, List.splitOn_ne_nil]
  intro h0
  rw [h0] at hlen
  exact hne (List.length_eq_zero_iff.1 hlen.symm)

theorem Parsed.misplaced_eq_false (h : t.Parsed) {l : Level} {i : ℕ}
    (hi : t.levels[i]? = some l) : misplaced t.levels.length (l, i) = false := by
  obtain ⟨s, hs⟩ := h
  exact (fromStr_eq_ok_iff.1 hs).2 i l hi

theorem Parsed.multiWildcard_last (h : t.Parsed) {i : ℕ}
    (hi : t.levels[i]? = some .multiWildcard) : i + 1 = t.levels.length := by
  have hm := h.misplaced_eq_false hi
  have hlt := (List.getElem?_eq_some_iff.1 hi).1
  simp only [misplaced, ne_eq, decide_not, Bool.not_eq_eq_eq_not, Bool.not_false,
    decide_eq_true_eq] at hm
  omega

theorem Parsed.metadata_first (h : t.Parsed) {i : ℕ} (hi : t.levels[i]? = some (.metadata s)) : i = 0 := by
  simpa [misplaced] using h.misplaced_eq_false hi

end Topic

/-- A topic filter as the parser accepts it. -/
def Filter := {t : Topic // t.Parsed}

/-- A topic name: an accepted topic without wildcards. -/
def TopicName := {t : Topic // t.Parsed ∧ t.wildcardFree = true}

end FerroMq
