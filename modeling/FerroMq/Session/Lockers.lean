import FerroMq.Lib.History
import FerroMq.Router.Types

/-!
# The lock of a client at one node

`LockEntry::try_lock` looks up or creates the mutex of the client and tries to lock it, in one step.  A
`LockEntry` that is dropped first removes the mutex from the map, whichever is there, and then releases its own.
The mutex in the map is that of the only `LockEntry` that holds a lock and is not being dropped
(`exclusive_run`).
-/

namespace FerroMq

open Lib

/-- How far a `LockEntry` that was created with a lock is. -/
inductive LockPhase
  | holding
  /-- The mutex is no longer in the map, and still locked. -/
  | dropping
  | dropped
  deriving DecidableEq

/-- A `LockEntry` that was created with a lock. -/
structure LockEntry where
  clientId : ClientId
  mutex : ℕ
  phase : LockPhase

/-- The map `lockers`, the mutexes and the `LockEntry` values.  Both are numbered as they are created. -/
structure Lockers where
  lockers : Map ClientId ℕ := ∅
  locked : Finset ℕ := ∅
  mutexes : ℕ := 0
  entries : Map ℕ LockEntry := ∅
  created : ℕ := 0

namespace Lockers

def tryLock (s : Lockers) (clientId : ClientId) : Bool × Lockers :=
  let (mutex, s) :=
    match s.lockers.lookup clientId with
    | some mutex => (mutex, s)
    | none => (s.mutexes,
        { s with lockers := s.lockers.insert clientId s.mutexes, mutexes := s.mutexes + 1 })
  if mutex ∈ s.locked then (false, s)
  else (true, { s with
    locked := insert mutex s.locked
    entries := s.entries.insert s.created ⟨clientId, mutex, .holding⟩
    created := s.created + 1 })

inductive Step
  | tryLock (clientId : ClientId)
  /-- The body of `drop`. -/
  | remove (entry : ℕ)
  /-- The guard is dropped with the fields. -/
  | release (entry : ℕ)

def step (s : Lockers) : Step → Lockers
  | .tryLock clientId => (s.tryLock clientId).2
  | .remove i =>
    match s.entries.lookup i with
    | some e =>
      if e.phase = .holding then
        { s with
          lockers := s.lockers.erase e.clientId
          entries := s.entries.insert i { e with phase := .dropping } }
      else s
    | none => s
  | .release i =>
    match s.entries.lookup i with
    | some e =>
      if e.phase = .dropping then
        { s with
          locked := s.locked.erase e.mutex
          entries := s.entries.insert i { e with phase := .dropped } }
      else s
    | none => s

/-- The entry holds a lock for the client and has not begun to be dropped. -/
def Holds (s : Lockers) (clientId : ClientId) (i : ℕ) : Prop :=
  ∃ mutex, s.entries.lookup i = some ⟨clientId, mutex, .holding⟩

/-- At most one entry holds the lock of a client, and if there is none, then the lock can be taken. -/
structure Exclusive (s : Lockers) : Prop where
  one : ∀ clientId i j, s.Holds clientId i → s.Holds clientId j → i = j
  free : ∀ clientId, (∀ i, ¬ s.Holds clientId i) →
    (s.tryLock clientId).1 = true ∧ (s.tryLock clientId).2.Holds clientId s.created

/-- The map holds the mutexes of the entries that hold a lock, and no mutex is locked twice. -/
structure Inv (s : Lockers) : Prop where
  holder : ∀ i c m, s.entries.lookup i = some ⟨c, m, .holding⟩ → s.lockers.lookup c = some m
  mapped : ∀ c m, s.lockers.lookup c = some m → ∃ i, s.entries.lookup i = some ⟨c, m, .holding⟩
  locked : ∀ i e, s.entries.lookup i = some e → e.phase = .holding → e.mutex ∈ s.locked
  distinct : ∀ i j e e', s.entries.lookup i = some e → s.entries.lookup j = some e' →
    e.mutex = e'.mutex → i = j
  below : ∀ i e, s.entries.lookup i = some e → i < s.created ∧ e.mutex < s.mutexes
  locked_below : ∀ m ∈ s.locked, m < s.mutexes

variable {s : Lockers}

theorem inv_start : Inv {} where
  holder _ _ _ h := by simp at h
  mapped _ _ h := by simp at h
  locked _ _ h := by simp at h
  distinct _ _ _ _ h := by simp at h
  below _ _ h := by simp at h
  locked_below _ h := by simp at h

theorem tryLock_cases (h : s.Inv) (c : ClientId) :
    ((∃ i, s.Holds c i) ∧ s.tryLock c = (false, s)) ∨
    (s.lockers.lookup c = none ∧ s.tryLock c = (true,
      { lockers := s.lockers.insert c s.mutexes
        locked := insert s.mutexes s.locked
        mutexes := s.mutexes + 1
        entries := s.entries.insert s.created ⟨c, s.mutexes, .holding⟩
        created := s.created + 1 })) := by
  unfold tryLock
  cases hlookup : s.lockers.lookup c with
  | some m =>
    obtain ⟨i, hi⟩ := h.mapped c m hlookup
    exact .inl ⟨⟨i, m, hi⟩, if_pos (h.locked i _ hi rfl)⟩
  | none =>
    have hnew : s.mutexes ∉ s.locked := fun hmem => Nat.lt_irrefl _ (h.locked_below _ hmem)
    exact .inr ⟨rfl, if_neg hnew⟩

theorem Inv.exclusive (h : s.Inv) : s.Exclusive where
  one := by
    rintro c i j ⟨m, hi⟩ ⟨m', hj⟩
    have hmutex := (h.holder i c m hi).symm.trans (h.holder j c m' hj)
    exact h.distinct i j _ _ hi hj (Option.some.inj hmutex)
  free := by
    intro c hfree
    rcases tryLock_cases h c with ⟨⟨i, hi⟩, -⟩ | ⟨-, heq⟩
    · exact absurd hi (hfree i)
    · rw [heq]
      exact ⟨rfl, s.mutexes, Finmap.lookup_insert _⟩

theorem Inv.tryLock (h : s.Inv) (c : ClientId) : (s.tryLock c).2.Inv := by
  rcases tryLock_cases h c with ⟨-, heq⟩ | ⟨hnone, heq⟩
  · rw [heq]
    exact h
  rw [heq]
  constructor
  case holder =>
    intro i c' m hi
    rcases Map.lookup_insert_eq_some_iff.1 hi with ⟨-, heq⟩ | ⟨-, hold⟩
    · cases heq
      exact Finmap.lookup_insert _
    · have hlookup := h.holder i c' m hold
      have hne : c' ≠ c := by
        rintro rfl
        exact nomatch hnone.symm.trans hlookup
      exact (Finmap.lookup_insert_of_ne _ hne).trans hlookup
  case mapped =>
    intro c' m hm
    rcases Map.lookup_insert_eq_some_iff.1 hm with ⟨rfl, rfl⟩ | ⟨-, hm⟩
    · exact ⟨s.created, Finmap.lookup_insert _⟩
    · obtain ⟨i, hi⟩ := h.mapped c' m hm
      have hne : i ≠ s.created := (h.below i _ hi).1.ne
      exact ⟨i, (Finmap.lookup_insert_of_ne _ hne).trans hi⟩
  case locked =>
    intro i e hi hphase
    rcases Map.lookup_insert_eq_some_iff.1 hi with ⟨-, rfl⟩ | ⟨-, hold⟩
    · exact Finset.mem_insert_self _ _
    · exact Finset.mem_insert_of_mem (h.locked i e hold hphase)
  case distinct =>
    intro i j e e' hi hj hmutex
    rcases Map.lookup_insert_eq_some_iff.1 hi with ⟨rfl, rfl⟩ | ⟨-, hi⟩ <;>
      rcases Map.lookup_insert_eq_some_iff.1 hj with ⟨rfl, rfl⟩ | ⟨-, hj⟩
    · rfl
    · exact absurd hmutex (h.below j e' hj).2.ne'
    · exact absurd hmutex (h.below i e hi).2.ne
    · exact h.distinct i j e e' hi hj hmutex
  case below =>
    intro i e hi
    rcases Map.lookup_insert_eq_some_iff.1 hi with ⟨rfl, rfl⟩ | ⟨-, hold⟩
    · exact ⟨Nat.lt_succ_self _, Nat.lt_succ_self _⟩
    · have hbelow := h.below i e hold
      exact ⟨Nat.lt_succ_of_lt hbelow.1, Nat.lt_succ_of_lt hbelow.2⟩
  case locked_below =>
    intro m hm
    rcases Finset.mem_insert.1 hm with rfl | hm
    · exact Nat.lt_succ_self _
    · exact Nat.lt_succ_of_lt (h.locked_below m hm)

theorem Inv.withPhase (h : s.Inv) {i : ℕ} {e : LockEntry} (hi : s.entries.lookup i = some e)
    {phase : LockPhase} (hphase : phase ≠ .holding) {lockers : Map ClientId ℕ} {locked : Finset ℕ}
    (hlockers : ∀ c m, lockers.lookup c = some m ↔
      ∃ j, j ≠ i ∧ s.entries.lookup j = some ⟨c, m, .holding⟩)
    (hlocked : ∀ m, m ∈ s.locked → m ≠ e.mutex → m ∈ locked) (hsub : locked ⊆ s.locked) :
    Inv { s with lockers, locked, entries := s.entries.insert i { e with phase } } := by
  have hmutex {j : ℕ} {e' : LockEntry}
      (hj : (s.entries.insert i { e with phase }).lookup j = some e') :
      ∃ e₀, s.entries.lookup j = some e₀ ∧ e₀.mutex = e'.mutex := by
    rcases Map.lookup_insert_eq_some_iff.1 hj with ⟨rfl, rfl⟩ | ⟨-, hold⟩
    exacts [⟨e, hi, rfl⟩, ⟨e', hold, rfl⟩]
  constructor
  case holder =>
    intro j c m hj
    rcases Map.lookup_insert_eq_some_iff.1 hj with ⟨-, heq⟩ | ⟨hne, hold⟩
    · exact absurd (congrArg LockEntry.phase heq).symm hphase
    · exact (hlockers c m).2 ⟨j, hne, hold⟩
  case mapped =>
    intro c m hm
    obtain ⟨j, hne, hj⟩ := (hlockers c m).1 hm
    exact ⟨j, (Finmap.lookup_insert_of_ne _ hne).trans hj⟩
  case locked =>
    intro j e' hj hholding
    rcases Map.lookup_insert_eq_some_iff.1 hj with ⟨-, rfl⟩ | ⟨hne, hold⟩
    · exact absurd hholding hphase
    · exact hlocked _ (h.locked j e' hold hholding) fun heq => hne (h.distinct j i e' e hold hi heq)
  case distinct =>
    intro j k e₁ e₂ hj hk heq
    obtain ⟨e₁', hj', heq₁⟩ := hmutex hj
    obtain ⟨e₂', hk', heq₂⟩ := hmutex hk
    exact h.distinct j k e₁' e₂' hj' hk' (heq₁.trans (heq.trans heq₂.symm))
  case below =>
    intro j e' hj
    obtain ⟨e₀, hj', heq⟩ := hmutex hj
    exact heq ▸ h.below j e₀ hj'
  case locked_below => exact fun m hm => h.locked_below m (hsub hm)

theorem Inv.step (h : s.Inv) (a : Step) : (s.step a).Inv := by
  cases a with
  | tryLock c => exact h.tryLock c
  | remove i =>
    cases hi : s.entries.lookup i with
    | none =>
      simp only [Lockers.step, hi]
      exact h
    | some e =>
      simp only [Lockers.step, hi]
      split_ifs with hphase
      case neg => exact h
      refine h.withPhase hi (by decide) (fun c m => ?_) (fun _ hm _ => hm) subset_rfl
      rw [Map.lookup_erase_eq_some_iff]
      constructor
      · rintro ⟨hne, hm⟩
        obtain ⟨j, hj⟩ := h.mapped c m hm
        refine ⟨j, ?_, hj⟩
        rintro rfl
        exact hne (congrArg LockEntry.clientId (Option.some.inj (hj.symm.trans hi)))
      · rintro ⟨j, hne, hj⟩
        refine ⟨?_, h.holder j c m hj⟩
        -- the other holder would have the same mutex
        rintro rfl
        have hmutex := (h.holder j _ m hj).symm.trans (h.holder i _ e.mutex (hphase ▸ hi))
        exact hne (h.distinct j i _ e hj hi (Option.some.inj hmutex))
  | release i =>
    cases hi : s.entries.lookup i with
    | none =>
      simp only [Lockers.step, hi]
      exact h
    | some e =>
      simp only [Lockers.step, hi]
      split_ifs with hphase
      case neg => exact h
      refine h.withPhase hi (by decide) (fun c m => ?_) (fun m hm hne => Finset.mem_erase.2 ⟨hne, hm⟩)
        (Finset.erase_subset _ _)
      constructor
      · intro hm
        obtain ⟨j, hj⟩ := h.mapped c m hm
        refine ⟨j, ?_, hj⟩
        rintro rfl
        obtain rfl := Option.some.inj (hj.symm.trans hi)
        exact nomatch hphase
      · rintro ⟨j, -, hj⟩
        exact h.holder j c m hj

/-- In every interleaving of attempts and drops, at most one entry holds the lock of a client, and an
attempt succeeds when none does. -/
theorem exclusive_run (l : List Step) : (l.foldl step {}).Exclusive :=
  (foldl_invariant (fun _ a h => h.step a) inv_start l).exclusive

end Lockers

end FerroMq
