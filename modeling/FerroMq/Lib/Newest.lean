import FerroMq.Lib.History

/-!
# Merging by the newest value

Several tasks offer values for the cells of a map.  For each offer a task reads the cell, compares and writes in
separate steps.  If no write overtakes another one (`Fresh`), every cell ends with the newest of all values
(`newest_of_fresh`).
-/

namespace FerroMq.Lib.Newest

open Function

variable {ι X M : Type}

/-- How far a task has come with its first offer. -/
inductive Phase (M : Type)
  | ready
  | got (current : Option M)
  | decided (current : Option M) (update : Bool)

structure Task (X M : Type) where
  offers : List (X × M)
  phase : Phase M

structure State (ι X M : Type) where
  cells : X → Option M
  tasks : ι → Task X M

variable (time : M → ℤ)

/-- A missing value is replaced, and one that is older. -/
def shouldUpdate (current : Option M) (m : M) : Bool :=
  match current with
  | some existing => decide (time m > time existing)
  | none => true

/-- If the task is about to write, the cell still holds what the task has read. -/
def Fresh (s : State ι X M) (i : ι) : Prop :=
  ∀ x m rest current, s.tasks i = ⟨(x, m) :: rest, .decided current true⟩ → s.cells x = current

/-- The cell holds a value that is not older. -/
def Dominated (cells : X → Option M) (x : X) (m : M) : Prop :=
  ∃ m', cells x = some m' ∧ time m ≤ time m'

def Known (s : State ι X M) (x : X) (m : M) : Prop :=
  s.cells x = some m ∨ ∃ i, (x, m) ∈ (s.tasks i).offers

/-- What a task in the middle of an offer has seen. -/
def Reads (cells : X → Option M) : Task X M → Prop
  | ⟨(x, _) :: _, .got current⟩ => ∀ e, current = some e → Dominated time cells x e
  | ⟨(x, m) :: _, .decided current update⟩ =>
    update = shouldUpdate time current m ∧ ∀ e, current = some e → Dominated time cells x e
  | _ => True

/-- Nothing that was known or has been offered is newer than what is held. -/
structure Inv (s₀ s : State ι X M) : Prop where
  offers : ∀ i, ∃ done, (s₀.tasks i).offers = done ++ (s.tasks i).offers ∧
    ∀ o ∈ done, Dominated time s.cells o.1 o.2
  start : ∀ x m, s₀.cells x = some m → Dominated time s.cells x m
  reads : ∀ i, Reads time s.cells (s.tasks i)
  origin : ∀ x m, s.cells x = some m → Known s₀ x m

section

variable {time} {s s₀ : State ι X M} {cells cells' : X → Option M}

/-- No cell loses its value or gets an older one. -/
def Grows (time : M → ℤ) (cells cells' : X → Option M) : Prop :=
  ∀ x m, cells x = some m → Dominated time cells' x m

theorem Grows.refl : Grows time cells cells := fun _ m h => ⟨m, h, le_rfl⟩

theorem Dominated.grows {x : X} {m : M} (h : Dominated time cells x m) (hg : Grows time cells cells') :
    Dominated time cells' x m := by
  obtain ⟨m', hm', hle⟩ := h
  obtain ⟨m'', hm'', hle'⟩ := hg x m' hm'
  exact ⟨m'', hm'', hle.trans hle'⟩

theorem Reads.grows {t : Task X M} (h : Reads time cells t) (hg : Grows time cells cells') :
    Reads time cells' t := by
  obtain ⟨offers, phase⟩ := t
  cases offers with
  | nil => trivial
  | cons o rest =>
    cases phase with
    | ready => trivial
    | got current => exact fun e he => (h e he).grows hg
    | decided current update => exact ⟨h.1, fun e he => (h.2 e he).grows hg⟩

theorem reads_ready (offers : List (X × M)) : Reads time cells ⟨offers, .ready⟩ := by
  cases offers <;> trivial

theorem Known.of_offer {i : ι} {x : X} {m : M} {rest : List (X × M)} (h : Inv time s₀ s)
    (hoffers : (s.tasks i).offers = (x, m) :: rest) : Known s₀ x m := by
  obtain ⟨done, hdone, -⟩ := h.offers i
  refine .inr ⟨i, ?_⟩
  rw [hdone, hoffers]
  exact List.mem_append_right _ List.mem_cons_self

end

variable [DecidableEq ι] [DecidableEq X]

def step (s : State ι X M) (i : ι) : State ι X M :=
  match (s.tasks i).offers, (s.tasks i).phase with
  | [], _ => s
  | (x, m) :: rest, .ready =>
    { s with tasks := Function.update s.tasks i ⟨(x, m) :: rest, .got (s.cells x)⟩ }
  | (x, m) :: rest, .got current =>
    { s with
      tasks := Function.update s.tasks i
        ⟨(x, m) :: rest, .decided current (shouldUpdate time current m)⟩ }
  | (x, m) :: rest, .decided _ update =>
    { cells := if update then Function.update s.cells x (some m) else s.cells
      tasks := Function.update s.tasks i ⟨rest, .ready⟩ }

section

variable {time} {s s₀ : State ι X M} {cells cells' : X → Option M}

variable {i : ι} {x : X} {m : M} {rest : List (X × M)}

theorem step_nil {phase : Phase M} (h : s.tasks i = ⟨[], phase⟩) : step time s i = s := by
  simp only [step, h]

theorem step_ready (h : s.tasks i = ⟨(x, m) :: rest, .ready⟩) :
    step time s i = ⟨s.cells, Function.update s.tasks i ⟨(x, m) :: rest, .got (s.cells x)⟩⟩ := by
  simp only [step, h]

theorem step_got {current : Option M} (h : s.tasks i = ⟨(x, m) :: rest, .got current⟩) :
    step time s i = ⟨s.cells, Function.update s.tasks i
      ⟨(x, m) :: rest, .decided current (shouldUpdate time current m)⟩⟩ := by
  simp only [step, h]

theorem step_decided {current : Option M} {update : Bool}
    (h : s.tasks i = ⟨(x, m) :: rest, .decided current update⟩) :
    step time s i = ⟨if update then Function.update s.cells x (some m) else s.cells,
      Function.update s.tasks i ⟨rest, .ready⟩⟩ := by
  simp only [step, h]

theorem grows_update (h : ∀ e, cells x = some e → time e ≤ time m) :
    Grows time cells (Function.update cells x (some m)) := by
  intro x' m' hm'
  by_cases hx : x' = x
  · subst hx
    exact ⟨m, update_self .., h m' hm'⟩
  · exact ⟨m', (update_of_ne hx _ _).trans hm', le_rfl⟩

omit [DecidableEq X] in
/-- A step of one task, seen from the invariant: what its offer has become, and what the cells are. -/
theorem Inv.move (h : Inv time s₀ s) {t : Task X M} {done : List (X × M)}
    (hg : Grows time s.cells cells') (hoffers : (s.tasks i).offers = done ++ t.offers)
    (hdone : ∀ o ∈ done, Dominated time cells' o.1 o.2) (hreads : Reads time cells' t)
    (horigin : ∀ x m, cells' x = some m → Known s₀ x m) :
    Inv time s₀ ⟨cells', Function.update s.tasks i t⟩ := by
  refine ⟨fun j => ?_, fun x m hm => (h.start x m hm).grows hg, fun j => ?_, horigin⟩
  · obtain ⟨old, hold, hdom⟩ := h.offers j
    dsimp only
    by_cases hj : j = i
    · subst hj
      refine ⟨old ++ done, ?_, fun o ho => ?_⟩
      · rw [hold, hoffers, List.append_assoc, update_self]
      · rcases List.mem_append.1 ho with ho | ho
        · exact (hdom o ho).grows hg
        · exact hdone o ho
    · refine ⟨old, ?_, fun o ho => (hdom o ho).grows hg⟩
      rw [hold, update_of_ne hj]
  · dsimp only
    by_cases hj : j = i
    · subst hj
      rwa [update_self]
    · rw [update_of_ne hj]
      exact (h.reads j).grows hg

theorem Inv.step (h : Inv time s₀ s) (hfresh : Fresh s i) : Inv time s₀ (step time s i) := by
  have hreads := h.reads i
  rcases ht : s.tasks i with ⟨_ | ⟨⟨x, m⟩, rest⟩, phase⟩
  · rwa [step_nil ht]
  have hoffers : (s.tasks i).offers = [] ++ (x, m) :: rest := by rw [ht, List.nil_append]
  rw [ht] at hreads
  cases phase with
  | ready =>
    rw [step_ready ht]
    exact h.move .refl hoffers nofun (fun e he => ⟨e, he, le_rfl⟩) h.origin
  | got current =>
    rw [step_got ht]
    exact h.move .refl hoffers nofun ⟨rfl, hreads⟩ h.origin
  | decided current update =>
    rw [step_decided ht]
    obtain ⟨hupdate, hcurrent⟩ := hreads
    have hfirst : (s.tasks i).offers = [(x, m)] ++ rest := hoffers
    cases update with
    | true =>
      -- the cell still holds what was read, and that is older
      have hcell : s.cells x = current := hfresh x m rest current ht
      have hgrows : Grows time s.cells (Function.update s.cells x (some m)) := by
        refine grows_update fun e he => ?_
        rw [← hcell, he] at hupdate
        exact (of_decide_eq_true hupdate.symm).le
      refine h.move hgrows hfirst (fun o ho => ?_) (reads_ready rest) fun x' m' hm' => ?_
      · obtain rfl := List.mem_singleton.1 ho
        exact ⟨m, update_self .., le_rfl⟩
      · by_cases hx : x' = x
        · subst hx
          rw [if_pos rfl, update_self] at hm'
          exact Option.some.inj hm' ▸ Known.of_offer h hoffers
        · rw [if_pos rfl, update_of_ne hx] at hm'
          exact h.origin x' m' hm'
    | false =>
      refine h.move .refl hfirst (fun o ho => ?_) (reads_ready rest) h.origin
      obtain rfl := List.mem_singleton.1 ho
      cases current with
      | none => exact nomatch hupdate
      | some e =>
        obtain ⟨m', hm', hle⟩ := hcurrent e rfl
        exact ⟨m', hm', (not_lt.1 (of_decide_eq_false hupdate.symm)).trans hle⟩

end

/-- If no write overtakes another one, every known cell ends with the newest of its known values. -/
theorem newest_of_fresh {s : State ι X M} (hready : ∀ i, (s.tasks i).phase = .ready) {l : List ι}
    (hl : Along (step time) Fresh s l) (hend : ∀ i, ((l.foldl (step time) s).tasks i).offers = [])
    {x : X} {m : M} (hknown : Known s x m) :
    ∃ m', (l.foldl (step time) s).cells x = some m' ∧ Known s x m' ∧
      ∀ m'', Known s x m'' → time m'' ≤ time m' := by
  have hinit : Inv time s s := by
    refine ⟨fun i => ⟨[], rfl, nofun⟩, fun x m hm => ⟨m, hm, le_rfl⟩, fun i => ?_,
      fun x m hm => .inl hm⟩
    have hphase := hready i
    generalize s.tasks i = t at hphase ⊢
    obtain ⟨offers, phase⟩ := t
    obtain rfl : phase = .ready := hphase
    exact reads_ready offers
  have hinv : Inv time s (l.foldl (step time) s) :=
    hl.invariant (fun _ _ hfresh h => h.step hfresh) hinit
  have hdom : ∀ m, Known s x m → Dominated time (l.foldl (step time) s).cells x m := by
    rintro m (hm | ⟨i, hm⟩)
    · exact hinv.start x m hm
    · obtain ⟨done, hdone, hdom⟩ := hinv.offers i
      rw [hend i, List.append_nil] at hdone
      exact hdom _ (hdone ▸ hm)
  obtain ⟨m', hm', -⟩ := hdom m hknown
  refine ⟨m', hm', hinv.origin x m' hm', fun m'' hm'' => ?_⟩
  obtain ⟨m₁, hm₁, hle⟩ := hdom m'' hm''
  rw [hm'] at hm₁
  exact Option.some.inj hm₁ ▸ hle

end FerroMq.Lib.Newest
