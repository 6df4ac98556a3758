import FerroMq.Topic.Basic

/-!
# The matching rule of MQTT

`Covers` compares a filter with a topic level by level, and `Topic.Matches` adds the rule that a filter with a
leading wildcard matches no topic whose first level starts with `$`.
-/

namespace FerroMq

open List

/-- Level-by-level matching of a filter (left) and a topic (right). -/
inductive Covers : List Level → List Level → Prop
  | nil : Covers [] []
  | multi (t : List Level) : Covers [.multiWildcard] t
  | single (l : Level) {f t : List Level} : Covers f t → Covers (.singleWildcard :: f) (l :: t)
  | exact {l : Level} {f t : List Level} :
      l.isWildcard = false → Covers f t → Covers (l :: f) (l :: t)

/-- The filter `f` starts with a wildcard and the topic `t` with a metadata level. -/
def Shielded (f t : List Level) : Prop :=
  ∃ a b, f.head? = some a ∧ t.head? = some b ∧ a.isWildcard = true ∧ b.isMetadata = true

/-- The filter `f` matches the topic `t`. -/
def Topic.Matches (f t : Topic) : Prop := Covers f.levels t.levels ∧ ¬ Shielded f.levels t.levels

theorem covers_nil_right_iff {f : List Level} : Covers f [] ↔ f = [] ∨ f = [.multiWildcard] := by
  constructor
  · intro h
    cases h with
    | nil => exact Or.inl rfl
    | multi => exact Or.inr rfl
  · rintro (rfl | rfl)
    · exact .nil
    · exact .multi []

theorem covers_cons_right_iff {f : List Level} {l : Level} {t : List Level}
    (hl : l.isWildcard = false) : Covers f (l :: t) ↔
      f = [.multiWildcard] ∨ (∃ f', f = .singleWildcard :: f' ∧ Covers f' t) ∨
        ∃ f', f = l :: f' ∧ Covers f' t := by
  constructor
  · intro h
    cases h with
    | multi => exact Or.inl rfl
    | single _ h => exact Or.inr (Or.inl ⟨_, rfl, h⟩)
    | exact _ h => exact Or.inr (Or.inr ⟨_, rfl, h⟩)
  · rintro (rfl | ⟨f', rfl, h⟩ | ⟨f', rfl, h⟩)
    · exact .multi _
    · exact .single l h
    · exact .exact hl h

theorem covers_plain_cons_iff {l : Level} {f t : List Level} (hl : l.isWildcard = false) :
    Covers (l :: f) t ↔ ∃ t', t = l :: t' ∧ Covers f t' := by
  constructor
  · intro h
    cases h with
    | multi | single => cases hl
    | exact _ h => exact ⟨_, rfl, h⟩
  · rintro ⟨t', rfl, h⟩
    exact .exact hl h

theorem covers_single_cons_iff {f t : List Level} :
    Covers (.singleWildcard :: f) t ↔ ∃ l t', t = l :: t' ∧ Covers f t' := by
  constructor
  · intro h
    cases h with
    | single l h => exact ⟨l, _, rfl, h⟩
    | exact hl _ => cases hl
  · rintro ⟨l, t', rfl, h⟩
    exact .single l h

theorem shielded_cons_iff {a b : Level} {f t : List Level} :
    Shielded (a :: f) (b :: t) ↔ a.isWildcard = true ∧ b.isMetadata = true := by
  simp [Shielded]

theorem not_shielded_nil_right (f : List Level) : ¬ Shielded f [] := by
  simp [Shielded]

theorem shielded_append_iff {f g t u : List Level} (hf : f ≠ []) (ht : t ≠ []) :
    Shielded (f ++ g) (t ++ u) ↔ Shielded f t := by
  rw [Shielded, Shielded, head?_append_of_ne_nil _ hf, head?_append_of_ne_nil _ ht]

theorem Covers.length_eq {f t : List Level} (h : Covers f t) (hf : .multiWildcard ∉ f) :
    t.length = f.length := by
  induction h with
  | nil => rfl
  | multi t => exact absurd mem_cons_self hf
  | single _ _ ih | exact _ _ ih =>
    rw [length_cons, length_cons, ih fun hmem => hf (mem_cons_of_mem _ hmem)]

theorem covers_append_iff {f g t : List Level} (hf : .multiWildcard ∉ f) :
    Covers (f ++ g) t ↔ ∃ t₁ t₂, t = t₁ ++ t₂ ∧ Covers f t₁ ∧ Covers g t₂ := by
  induction f generalizing t with
  | nil =>
    constructor
    · exact fun h => ⟨[], t, rfl, .nil, h⟩
    · rintro ⟨t₁, t₂, rfl, ⟨⟩, h⟩
      exact h
  | cons l f ih =>
    have ih' : ∀ t, Covers (f ++ g) t ↔ ∃ t₁ t₂, t = t₁ ++ t₂ ∧ Covers f t₁ ∧ Covers g t₂ := fun t =>
      ih fun hmem => hf (mem_cons_of_mem _ hmem)
    rw [cons_append]
    by_cases hl : l.isWildcard = false
    · simp only [covers_plain_cons_iff hl, ih']
      constructor
      · rintro ⟨t', rfl, t₁, t₂, rfl, h₁, h₂⟩
        exact ⟨l :: t₁, t₂, rfl, ⟨t₁, rfl, h₁⟩, h₂⟩
      · rintro ⟨_, t₂, rfl, ⟨t₁, rfl, h₁⟩, h₂⟩
        exact ⟨t₁ ++ t₂, rfl, t₁, t₂, rfl, h₁, h₂⟩
    · cases l with
      | multiWildcard => exact absurd mem_cons_self hf
      | singleWildcard =>
        simp only [covers_single_cons_iff, ih']
        constructor
        · rintro ⟨l, t', rfl, t₁, t₂, rfl, h₁, h₂⟩
          exact ⟨l :: t₁, t₂, rfl, ⟨l, t₁, rfl, h₁⟩, h₂⟩
        · rintro ⟨_, t₂, rfl, ⟨l, t₁, rfl, h₁⟩, h₂⟩
          exact ⟨l, t₁ ++ t₂, rfl, t₁, t₂, rfl, h₁, h₂⟩
      | normal | metadata | blank => exact absurd rfl hl

theorem covers_concat_iff {f t : List Level} {l m : Level} (hf : .multiWildcard ∉ f)
    (hl : l ≠ .multiWildcard) :
    Covers (f ++ [l]) (t ++ [m]) ↔ Covers f t ∧ (l = .singleWildcard ∨ l = m) := by
  have hlast : ∀ t₂, Covers [l] t₂ ↔ ∃ m, t₂ = [m] ∧ (l = .singleWildcard ∨ l = m) := by
    intro t₂
    constructor
    · intro h
      cases h with
      | multi => exact absurd rfl hl
      | single m h =>
        cases h
        exact ⟨m, rfl, Or.inl rfl⟩
      | exact _ h =>
        cases h
        exact ⟨l, rfl, Or.inr rfl⟩
    · rintro ⟨m, rfl, rfl | rfl⟩
      · exact .single m .nil
      · cases l with
        | multiWildcard => exact absurd rfl hl
        | singleWildcard => exact .single _ .nil
        | normal | metadata | blank => exact .exact rfl .nil
  rw [covers_append_iff hf]
  constructor
  · rintro ⟨t₁, t₂, heq, h₁, h₂⟩
    obtain ⟨m', rfl, hm⟩ := (hlast t₂).1 h₂
    obtain ⟨rfl, hmm⟩ := append_inj' heq rfl
    cases hmm
    exact ⟨h₁, hm⟩
  · rintro ⟨h, hm⟩
    exact ⟨t, [m], rfl, h, (hlast [m]).2 ⟨m, rfl, hm⟩⟩

/-- A trailing `#` covers a longer topic if it covers the shorter one, or if the filter before it covers the
longer one. -/
theorem covers_concat_multi_iff {f t : List Level} {m : Level} (hf : .multiWildcard ∉ f) :
    Covers (f ++ [.multiWildcard]) (t ++ [m]) ↔
      Covers (f ++ [.multiWildcard]) t ∨ Covers f (t ++ [m]) := by
  rw [covers_append_iff hf, covers_append_iff hf]
  constructor
  · rintro ⟨t₁, t₂, heq, h₁, -⟩
    rcases eq_nil_or_concat t₂ with rfl | ⟨t₂, m', rfl⟩
    · rw [append_nil] at heq
      exact Or.inr (heq ▸ h₁)
    · rw [concat_eq_append, ← append_assoc] at heq
      exact Or.inl ⟨t₁, t₂, (append_inj' heq rfl).1, h₁, .multi t₂⟩
  · rintro (⟨t₁, t₂, rfl, h₁, -⟩ | h)
    · exact ⟨t₁, t₂ ++ [m], append_assoc _ _ _, h₁, .multi _⟩
    · exact ⟨t ++ [m], [], (append_nil _).symm, h, .multi []⟩

end FerroMq
