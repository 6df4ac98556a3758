import Mathlib

/-!
# Histories

Facts about the list of everything that has happened, oldest first: which event was the last one of
its kind, and what holds after every event.
-/

namespace FerroMq.Lib

open List Function

variable {α σ : Type}

variable {l : List α} {step : σ → α → σ} {Ok : σ → α → Prop} {Inv : σ → Prop} {s : σ}

theorem concat_eq_append_cons {pre mid : List α} {a b : α} (h : l ++ [a] = pre ++ b :: mid) :
    l = pre ∧ a = b ∧ mid = [] ∨ ∃ mid', mid = mid' ++ [a] ∧ l = pre ++ b :: mid' := by
  rcases eq_nil_or_concat mid with rfl | ⟨mid', a', rfl⟩
  · obtain ⟨hl, ha⟩ := append_inj' h rfl
    exact .inl ⟨hl, (List.cons.inj ha).1, rfl⟩
  · rw [concat_eq_append, ← cons_append, ← append_assoc] at h
    obtain ⟨hl, ha⟩ := append_inj' h rfl
    obtain rfl := (List.cons.inj ha).1
    exact .inr ⟨mid', concat_eq_append, hl⟩

/-- `a` has happened, and everything after it satisfies `Q`. -/
def LastThat (Q : α → Prop) (a : α) (l : List α) : Prop :=
  ∃ pre post, l = pre ++ a :: post ∧ ∀ b ∈ post, Q b

theorem not_lastThat_nil (Q : α → Prop) (a : α) : ¬ LastThat Q a [] := by
  rintro ⟨pre, post, h, -⟩
  simp at h

theorem LastThat.mem {Q : α → Prop} {a : α} (h : LastThat Q a l) : a ∈ l := by
  obtain ⟨pre, post, rfl, -⟩ := h
  exact mem_append_right _ mem_cons_self

theorem lastThat_concat {Q : α → Prop} {a b : α} : LastThat Q a (l ++ [b]) ↔ b = a ∨ LastThat Q a l ∧ Q b := by
  constructor
  · rintro ⟨pre, post, h, hpost⟩
    rcases concat_eq_append_cons h with ⟨-, hb, -⟩ | ⟨post', rfl, hl⟩
    · exact Or.inl hb
    · exact Or.inr ⟨⟨pre, post', hl, fun y hy => hpost y (by simp [hy])⟩, hpost b (by simp)⟩
  · rintro (rfl | ⟨⟨pre, post, rfl, hpost⟩, hb⟩)
    · exact ⟨l, [], rfl, nofun⟩
    · refine ⟨pre, post ++ [b], by simp, fun y hy => ?_⟩
      rcases mem_append.1 hy with hy | hy
      · exact hpost y hy
      · rw [mem_singleton.1 hy]
        exact hb

/-- Every event is allowed in the state in which it happens. -/
def Along (step : σ → α → σ) (Ok : σ → α → Prop) : σ → List α → Prop
  | _, [] => True
  | s, a :: l => Ok s a ∧ Along step Ok (step s a) l

instance Along.instDecidable {step : σ → α → σ} {Ok : σ → α → Prop} [∀ s a, Decidable (Ok s a)] :
    (s : σ) → (l : List α) → Decidable (Along step Ok s l)
  | _, [] => isTrue trivial
  | s, a :: l =>
    have : Decidable (Along step Ok (step s a) l) := instDecidable (step s a) l
    inferInstanceAs (Decidable (Ok s a ∧ Along step Ok (step s a) l))

theorem Along.invariant (hstep : ∀ s a, Ok s a → Inv s → Inv (step s a)) (hl : Along step Ok s l)
    (hs : Inv s) : Inv (l.foldl step s) := by
  induction l generalizing s with
  | nil => exact hs
  | cons a l ih => exact ih hl.2 (hstep s a hl.1 hs)

theorem foldl_invariant (hstep : ∀ s a, Inv s → Inv (step s a)) (hs : Inv s) (l : List α) : Inv (l.foldl step s) := by
  induction l generalizing s with
  | nil => exact hs
  | cons a l ih => exact ih (hstep s a hs)

theorem Along.relates {τ : Type} {step' : τ → α → τ}
    {R : σ → τ → Prop} (hstep : ∀ s t a, Ok s a → R s t → R (step s a) (step' t a)) {t : τ}
    (hl : Along step Ok s l) (hst : R s t) : R (l.foldl step s) (l.foldl step' t) := by
  induction l generalizing s t with
  | nil => exact hst
  | cons a l ih => exact ih hl.2 (hstep s t a hl.1 hst)

theorem Along.simulate {τ : Type} {step' : τ → α → τ} {Ok' : τ → α → Prop} {R : σ → τ → Prop}
    (hstep : ∀ s t a, Ok s a → R s t → Ok' t a ∧ R (step s a) (step' t a)) {t : τ}
    (hl : Along step Ok s l) (hst : R s t) : Along step' Ok' t l ∧ R (l.foldl step s) (l.foldl step' t) := by
  induction l generalizing s t with
  | nil => exact ⟨trivial, hst⟩
  | cons a l ih =>
    obtain ⟨hok, hst'⟩ := hstep s t a hl.1 hst
    obtain ⟨hrest, hend⟩ := ih hl.2 hst'
    exact ⟨⟨hok, hrest⟩, hend⟩

theorem along_map {β : Type} {step : σ → β → σ} {Ok : σ → β → Prop} (f : α → β) :
    Along step Ok s (l.map f) ↔ Along (fun s a => step s (f a)) (fun s a => Ok s (f a)) s l := by
  induction l generalizing s with
  | nil => exact Iff.rfl
  | cons a l ih => exact and_congr_right fun _ => ih

theorem Along.mono {Ok' : σ → α → Prop} (h : ∀ s a, Ok s a → Ok' s a) (hl : Along step Ok s l) :
    Along step Ok' s l := by
  induction l generalizing s with
  | nil => trivial
  | cons a l ih => exact ⟨h s a hl.1, ih hl.2⟩

theorem along_congr {Ok' : σ → α → Prop} (Inv : σ → Prop)
    (hinv : ∀ s a, Inv s → Ok' s a → Inv (step s a)) (h : ∀ s a, Inv s → (Ok s a ↔ Ok' s a))
    (hs : Inv s) (l : List α) : Along step Ok s l ↔ Along step Ok' s l := by
  induction l generalizing s with
  | nil => exact Iff.rfl
  | cons a l ih =>
    exact (and_congr_left' (h s a hs)).trans (and_congr_right fun hok => ih (hinv s a hs hok))

theorem along_append {l' : List α} :
    Along step Ok s (l ++ l') ↔ Along step Ok s l ∧ Along step Ok (l.foldl step s) l' := by
  induction l generalizing s with
  | nil => exact ⟨fun h => ⟨trivial, h⟩, fun h => h.2⟩
  | cons a l ih => exact (and_congr_right fun _ => ih).trans and_assoc.symm

/-- If an event keeps `P` exactly when it is allowed, then `P` holds at all times exactly when every
event is allowed. -/
theorem forall_prefix_iff_along {P : σ → Prop} (hinv : ∀ s a, Inv s → Inv (step s a))
    (hstep : ∀ s a, Inv s → P s → (P (step s a) ↔ Ok s a)) (hs : Inv s) (hP : P s)
    (l : List α) : (∀ pre, pre <+: l → P (pre.foldl step s)) ↔ Along step Ok s l := by
  induction l generalizing s with
  | nil =>
    refine iff_of_true (fun pre hpre => ?_) trivial
    rw [prefix_nil.1 hpre]
    exact hP
  | cons a l ih =>
    constructor
    · intro h
      have hPa : P (step s a) := h [a] ⟨l, rfl⟩
      refine ⟨(hstep s a hs hP).1 hPa, (ih (hinv s a hs) hPa).1 fun pre hpre => ?_⟩
      exact h (a :: pre) ((cons_prefix_cons).2 ⟨rfl, hpre⟩)
    · rintro ⟨hok, hl⟩ pre hpre
      cases pre with
      | nil => exact hP
      | cons b pre =>
        obtain ⟨rfl, hpre'⟩ := cons_prefix_cons.1 hpre
        exact (ih (hinv s b hs) ((hstep s b hs hP).2 hok)).2 hl pre hpre'

theorem forall_prefix_iff_along_of_step {P : σ → Prop}
    (hstep : ∀ s a, P s → (P (step s a) ↔ Ok s a)) (hP : P s) (l : List α) :
    (∀ pre, pre <+: l → P (pre.foldl step s)) ↔ Along step Ok s l :=
  @forall_prefix_iff_along _ _ step Ok (fun _ => True) s P (fun _ _ _ => trivial)
    (fun s a _ h => hstep s a h) trivial hP l

/-! ## Balances -/

section Balance

variable {A : Type} [AddCommMonoid A] {step : σ → α → σ} {balance : σ → A} {gain loss : σ → α → A}

def total (step : σ → α → σ) (f : σ → α → A) : σ → List α → A
  | _, [] => 0
  | s, a :: l => f s a + total step f (step s a) l

theorem balance_total (h : ∀ s a, balance (step s a) + loss s a = balance s + gain s a) (s : σ)
    (l : List α) :
    balance (l.foldl step s) + total step loss s l = balance s + total step gain s l := by
  induction l generalizing s with
  | nil => rfl
  | cons a l ih =>
    have hstep := h s a
    have hrest := ih (step s a)
    simp only [foldl_cons, total]
    calc balance (l.foldl step (step s a)) + (loss s a + total step loss (step s a) l)
        = balance (l.foldl step (step s a)) + total step loss (step s a) l + loss s a := by
          rw [add_comm (loss s a), add_assoc]
      _ = balance (step s a) + loss s a + total step gain (step s a) l := by
          rw [hrest, add_right_comm]
      _ = balance s + (gain s a + total step gain (step s a) l) := by
          rw [hstep, add_assoc]

theorem total_eq_zero_iff [PartialOrder A] [CanonicallyOrderedAdd A] {s : σ} {l : List α} :
    total step loss s l = 0 ↔ Along step (fun s a => loss s a = 0) s l := by
  induction l generalizing s with
  | nil => exact iff_of_true rfl trivial
  | cons a l ih => exact add_eq_zero.trans (and_congr_right fun _ => ih)

end Balance

/-! ## Writes -/

section Writes

variable {K V : Type} [DecidableEq K] {m m' : K → V} {l : List (K × V)} {k : K}

def writes (m : K → V) (l : List (K × V)) : K → V :=
  l.foldl (fun m w => Function.update m w.1 w.2) m

theorem writes_append (m : K → V) (l l' : List (K × V)) :
    writes m (l ++ l') = writes (writes m l) l' :=
  foldl_append

theorem writes_congr (h : m k = m' k) : writes m l k = writes m' l k := by
  induction l generalizing m m' with
  | nil => exact h
  | cons w l ih =>
    refine ih ?_
    change Function.update m w.1 w.2 k = Function.update m' w.1 w.2 k
    rcases eq_or_ne k w.1 with rfl | hk
    · rw [update_self, update_self]
    · rw [update_of_ne hk, update_of_ne hk, h]

theorem writes_of_forall_ne (h : ∀ w ∈ l, w.1 ≠ k) : writes m l k = m k := by
  induction l generalizing m with
  | nil => rfl
  | cons w l ih =>
    refine (ih fun w' hw' => h w' (mem_cons_of_mem w hw')).trans ?_
    exact update_of_ne (h w mem_cons_self).symm _ _

theorem writes_of_exists (h : ∃ w ∈ l, w.1 = k) : writes m l k = writes m' l k := by
  induction l generalizing m m' with
  | nil =>
    obtain ⟨w, hw, -⟩ := h
    cases hw
  | cons w l ih =>
    by_cases hl : ∃ w' ∈ l, w'.1 = k
    · exact ih hl
    · obtain ⟨w', hw', rfl⟩ := h
      obtain rfl : w' = w := (mem_cons.1 hw').resolve_right fun hmem => hl ⟨w', hmem, rfl⟩
      change writes (Function.update m _ _) l _ = writes (Function.update m' _ _) l _
      refine writes_congr ?_
      rw [update_self, update_self]

end Writes

end FerroMq.Lib
