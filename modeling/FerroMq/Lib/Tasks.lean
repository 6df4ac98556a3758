import Mathlib

/-!
# Tasks in the background

A state and the tasks that are pending, in the order of their last steps.  Any of them may be the next to take a step
(`turn`); what it goes on with and what it starts come last.
-/

namespace FerroMq.Lib.Tasks

variable {σ τ : Type}

def turn (exec : σ → τ → σ × List τ) (s : σ × List τ) (i : ℕ) : σ × List τ :=
  match s.2[i]? with
  | some t => ((exec s.1 t).1, s.2.eraseIdx i ++ (exec s.1 t).2)
  | none => s

theorem turn_cases (exec : σ → τ → σ × List τ) (s : σ) (tasks : List τ) (i : ℕ) :
    turn exec (s, tasks) i = (s, tasks) ∨
    ∃ pre t post, tasks = pre ++ t :: post ∧ pre = tasks.take i ∧ tasks[i]? = some t ∧
      turn exec (s, tasks) i = ((exec s t).1, pre ++ post ++ (exec s t).2) := by
  cases ht : tasks[i]? with
  | none => exact .inl (by rw [turn, ht])
  | some t =>
    obtain ⟨hi, rfl⟩ := List.getElem?_eq_some_iff.1 ht
    refine .inr ⟨tasks.take i, _, tasks.drop (i + 1), ?_, rfl, rfl, ?_⟩
    · rw [List.getElem_cons_drop, List.take_append_drop]
    · rw [turn, ht, List.eraseIdx_eq_take_drop_succ]

theorem turn_keeps {exec : σ → τ → σ × List τ} {P : σ → Prop} {Q : τ → Prop}
    (h : ∀ s t, P s → Q t → P (exec s t).1 ∧ ∀ t' ∈ (exec s t).2, Q t') {s : σ × List τ} (hs : P s.1)
    (htasks : ∀ t ∈ s.2, Q t) (i : ℕ) : P (turn exec s i).1 ∧ ∀ t ∈ (turn exec s i).2, Q t := by
  obtain ⟨s, tasks⟩ := s
  rcases turn_cases exec s tasks i with heq | ⟨pre, t, post, rfl, -, -, heq⟩
  · rw [heq]
    exact ⟨hs, htasks⟩
  · obtain ⟨hexec, hmore⟩ := h s t hs (htasks t (List.mem_append_right _ List.mem_cons_self))
    rw [heq]
    refine ⟨hexec, fun t' ht' => ?_⟩
    rw [List.mem_append, List.mem_append] at ht'
    rcases ht' with (hpre | hpost) | hin
    · exact htasks t' (List.mem_append_left _ hpre)
    · exact htasks t' (List.mem_append_right _ (List.mem_cons_of_mem _ hpost))
    · exact hmore t' hin

end FerroMq.Lib.Tasks
