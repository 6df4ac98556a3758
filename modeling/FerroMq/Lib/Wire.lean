import Mathlib

/-!
# Reading and writing bytes

A reader `Dec` consumes a prefix of its input and returns a value, fails or panics; a writer `Enc` appends to a
buffer and keeps what it has written when it fails.  `Reads d bs a` says that `d` turns `bs` into `a` whatever
follows, and `Safe d src Q` that `d` does not panic on `src` and `Q` holds if it succeeds.  `Emits`, `Strict`
and `Spec` say what a writer appends and how it fails.
-/

namespace FerroMq.Lib

open List

abbrev Bytes := List UInt8

inductive Fault (ε : Type)
  | err (e : ε)
  | panic
  deriving DecidableEq, Repr

variable {ε α β : Type}

theorem bind_eq_ok_iff {x : Except ε α} {f : α → Except ε β} {b : β} :
    (x >>= f) = .ok b ↔ ∃ a, x = .ok a ∧ f a = .ok b := by
  cases x <;> simp [bind, Except.bind]

theorem mapM_eq_ok_iff {f : α → Except ε β} {l : List α} {l' : List β} :
    l.mapM f = .ok l' ↔ List.Forall₂ (fun a b => f a = .ok b) l l' := by
  induction l generalizing l' with
  | nil => simp [pure, Except.pure, eq_comm]
  | cons a l ih =>
    simp only [mapM_cons, bind_eq_ok_iff, ih, forall₂_cons_left_iff, pure, Except.pure,
      Except.ok.injEq, ← exists_and_left, eq_comm (b := l')]

/-! ## Readers -/

/-- A reader: the value and the bytes that are left, or a failure. -/
def Dec (ε α : Type) := Bytes → Except (Fault ε) (α × Bytes)

namespace Dec

instance : Monad (Dec ε) where
  pure a := fun src => .ok (a, src)
  bind d f := fun src =>
    match d src with
    | .ok (a, rest) => f a rest
    | .error e => .error e

instance : LawfulMonad (Dec ε) := by
  refine LawfulMonad.mk' (Dec ε) (fun d => funext fun src => ?_) (fun _ _ => rfl)
    (fun d f g => funext fun src => ?_)
  · change (match d src with | .ok (a, rest) => _ | .error e => _) = d src
    rcases d src with _ | ⟨_, _⟩ <;> rfl
  · change (match (match d src with | .ok (a, rest) => f a rest | .error e => .error e) with
      | .ok (b, rest) => g b rest | .error e => .error e) =
      match d src with | .ok (a, rest) => _ | .error e => _
    rcases d src with _ | ⟨_, _⟩ <;> rfl

def fail (e : ε) : Dec ε α := fun _ => .error (.err e)

def panic : Dec ε α := fun _ => .error .panic

def ensure (c : Prop) [Decidable c] (e : ε) : Dec ε Unit := if c then pure () else fail e

def hasRemaining : Dec ε Bool := fun src => .ok (!src.isEmpty, src)

def remaining : Dec ε ℕ := fun src => .ok (src.length, src)

def getU8 : Dec ε UInt8
  | [] => .error .panic
  | b :: rest => .ok (b, rest)

def splitTo (n : ℕ) : Dec ε Bytes := fun src =>
  if n ≤ src.length then .ok (src.take n, src.drop n) else .error .panic

def within (d : Dec ε α) (sub : Bytes) : Dec ε α := fun src =>
  match d sub with
  | .ok (a, _) => .ok (a, src)
  | .error e => .error e

def turns (step : α → Dec ε α) : ℕ → α → Dec ε α
  | 0, acc => pure acc
  | n + 1, acc => do
    if ← hasRemaining then
      let acc ← step acc
      turns step n acc
    else pure acc

/-- `while src.has_remaining() { … }`.  Every turn of the loops it is used for consumes a byte, so
there are no more turns than bytes. -/
def whileRemaining (step : α → Dec ε α) (acc : α) : Dec ε α := fun src =>
  turns step src.length acc src

theorem bind_apply (d : Dec ε α) (f : α → Dec ε β) (src : Bytes) :
    (d >>= f) src =
      match d src with
      | .ok (a, rest) => f a rest
      | .error e => .error e := rfl

theorem pure_apply (a : α) (src : Bytes) : (pure a : Dec ε α) src = .ok (a, src) := rfl

/-! ### Reading back known bytes -/

/-- `d` turns `bs` into `a` and leaves what follows. -/
def Reads (d : Dec ε α) (bs : Bytes) (a : α) : Prop := ∀ rest, d (bs ++ rest) = .ok (a, rest)

variable {d : Dec ε α} {bs src : Bytes} {a : α} {f : α → Dec ε β} {b : β} {n : ℕ} {e : ε} {step : α → Dec ε α}
  {l : List β} {Q : α → Bytes → Prop}

theorem Reads.run (h : Reads d bs a) : d bs = .ok (a, []) := by
  simpa using h []

theorem Reads.bind_run (h : Reads d bs a) (f : α → Dec ε β) (cs : Bytes) : (d >>= f) (bs ++ cs) = f a cs := by
  rw [bind_apply, h cs]

theorem Reads.pure (a : α) : Reads (Pure.pure a : Dec ε α) [] a := fun _ => rfl

theorem Reads.bind {cs : Bytes} (h : Reads d bs a) (hf : Reads (f a) cs b) : Reads (d >>= f) (bs ++ cs) b := by
  intro rest
  rw [append_assoc, h.bind_run, hf rest]

theorem Reads.bind_nil (h : Reads d [] a) (hf : Reads (f a) bs b) : Reads (d >>= f) bs b :=
  h.bind hf

theorem Reads.bind_last (h : Reads d bs a) (hf : Reads (f a) [] b) : Reads (d >>= f) bs b := by
  simpa using h.bind hf

theorem Reads.ensure {c : Prop} [Decidable c] (h : c) (e : ε) : Reads (ensure c e) [] () := by
  intro rest
  rw [Dec.ensure, if_pos h]
  rfl

theorem Reads.remaining {f : ℕ → Dec ε β} (h : ∀ rest, f (bs ++ rest).length (bs ++ rest) = .ok (b, rest)) :
    Reads (Dec.remaining >>= f) bs b := h

theorem Reads.need {d : Dec ε β} (hn : n ≤ bs.length) (h : Reads d bs b) :
    Reads (do let r ← Dec.remaining; Dec.ensure (n ≤ r) e; d) bs b := by
  refine Reads.remaining fun rest => ?_
  rw [bind_apply, Dec.ensure, if_pos (by simp; omega)]
  exact h rest

theorem Reads.needMore {d : Dec ε β} {b : UInt8} {r : β} (h : Reads d (b :: bs) r) :
    Reads (do let more ← Dec.hasRemaining; Dec.ensure (more = true) e; d) (b :: bs) r := h

theorem Reads.getU8 (b : UInt8) : Reads (getU8 : Dec ε UInt8) [b] b := fun _ => rfl

theorem Reads.splitTo (h : bs.length = n) : Reads (splitTo n : Dec ε Bytes) bs bs := by
  intro rest
  subst h
  simp [Dec.splitTo]

theorem Reads.within {sub : Bytes} {rest : Bytes} (h : d sub = .ok (a, rest)) : Reads (within d sub) [] a := by
  intro rest'
  simp [Dec.within, h]

/-- `d` turns `bs` into `a` if nothing follows; some of `bs` may be left over. -/
def Returns (d : Dec ε α) (bs : Bytes) (a : α) : Prop := ∃ rest, d bs = .ok (a, rest)

theorem Reads.returns (h : Reads d bs a) : Returns d bs a :=
  ⟨[], h.run⟩

theorem Returns.bind {cs : Bytes}
    (h : Reads d bs a) (hf : Returns (f a) cs b) : Returns (d >>= f) (bs ++ cs) b := by
  obtain ⟨rest, hf⟩ := hf
  exact ⟨rest, (h.bind_run f cs).trans hf⟩

theorem Returns.map (h : Returns d bs a) (f : α → β) : Returns (do return f (← d)) bs (f a) := by
  obtain ⟨rest, h⟩ := h
  exact ⟨rest, by rw [bind_apply, h]; rfl⟩

theorem Returns.bind_nil (h : Reads d [] a) (hf : Returns (f a) bs b) : Returns (d >>= f) bs b :=
  Returns.bind h hf

theorem Returns.bind_last (h : Reads d bs a) (hf : Returns (f a) [] b) : Returns (d >>= f) bs b := by
  simpa using Returns.bind h hf

theorem Returns.need {d : Dec ε β} (hn : n ≤ bs.length) (h : Returns d bs b) :
    Returns (do let r ← Dec.remaining; Dec.ensure (n ≤ r) e; d) bs b := by
  obtain ⟨rest, h⟩ := h
  refine ⟨rest, ?_⟩
  change (Dec.ensure (n ≤ bs.length) e >>= fun _ => d) bs = _
  rwa [Dec.ensure, if_pos hn]

theorem Returns.more {f : Bool → Dec ε β} (hne : bs ≠ [])
    (h : Returns (f true) bs b) : Returns (Dec.hasRemaining >>= f) bs b := by
  cases bs with
  | nil => exact absurd rfl hne
  | cons => exact h

theorem Returns.atEnd : Returns (do let more ← Dec.hasRemaining; Dec.ensure (more = false) e; return b) [] b :=
  ⟨[], rfl⟩

/-- What `d` does is decided by the bytes it has seen: more input changes its answer only if it has
failed with `stop`, which means that the input ended too early. -/
def Decided (d : Dec ε α) (stop : ε) : Prop :=
  ∀ src, match d src with
    | .ok (a, rest) => ∃ bs, src = bs ++ rest ∧ Reads d bs a
    | .error f => f = .err stop ∨ ∀ more, d (src ++ more) = .error f

/-- `d` rejects `bs` with the error `e`. -/
def Rejects (d : Dec ε α) (bs : Bytes) (e : ε) : Prop := d bs = .error (.err e)

theorem Rejects.bind {cs : Bytes}
    (h : Reads d bs a) (hf : Rejects (f a) cs e) : Rejects (d >>= f) (bs ++ cs) e :=
  (h.bind_run f cs).trans hf

theorem Rejects.bind_nil (h : Reads d [] a) (hf : Rejects (f a) bs e) : Rejects (d >>= f) bs e :=
  Rejects.bind h hf

theorem Rejects.first (h : Rejects d bs e) (f : α → Dec ε β) : Rejects (d >>= f) bs e := by
  rw [Rejects, bind_apply, h]

theorem Rejects.ensure {c : Prop} [Decidable c] (h : ¬ c) (e : ε) (bs : Bytes) :
    Rejects (ensure c e) bs e := by
  rw [Dec.ensure, if_neg h]
  rfl

/-- The loop takes the accumulator `a` to `a'` by turns that read `bs`. -/
inductive Steps (step : α → Dec ε α) : α → Bytes → α → Prop
  | nil (a : α) : Steps step a [] a
  | cons {a a' a'' : α} {bs cs : Bytes} : bs ≠ [] → Reads (step a) bs a' →
      Steps step a' cs a'' → Steps step a (bs ++ cs) a''

theorem Steps.trans {a' a'' : α} {cs : Bytes} (h : Steps step a bs a')
    (h' : Steps step a' cs a'') : Steps step a (bs ++ cs) a'' := by
  induction h with
  | nil => exact h'
  | cons hne hr _ ih =>
    rw [append_assoc]
    exact .cons hne hr (ih h')

theorem Steps.single {a' : α} (hne : bs ≠ []) (h : Reads (step a) bs a') : Steps step a bs a' := by
  simpa using Steps.cons hne h (.nil a')

theorem Steps.list (set : List β → α) {w : β → Bytes} (hne : ∀ b, w b ≠ [])
    (h : ∀ done, ∀ b ∈ l, Reads (step (set done)) (w b) (set (done ++ [b]))) (done : List β) :
    Steps step (set done) (l.flatMap w) (set (done ++ l)) := by
  induction l generalizing done with
  | nil => simpa using Steps.nil (set done)
  | cons b l ih =>
    have hrest := ih (fun done b' hb' => h done b' (mem_cons_of_mem b hb')) (done ++ [b])
    rw [append_assoc] at hrest
    exact .cons (hne b) (h done b mem_cons_self) hrest

theorem Steps.collect {step : List β → Dec ε (List β)} {w : β → Bytes}
    (hne : ∀ b, w b ≠ []) (h : ∀ done, ∀ b ∈ l, Reads (step done) (w b) (done ++ [b])) :
    Steps step [] (l.flatMap w) l :=
  Steps.list (fun done => done) hne h []

theorem Reads.mapM {d : α → Dec ε β} {g : β → α}
    (h : ∀ b, Reads (d (g b)) [] b) : Reads ((l.map g).mapM d) [] l := by
  induction l with
  | nil => exact .pure []
  | cons b l ih =>
    rw [map_cons, mapM_cons]
    exact .bind_nil (h b) (.bind_nil ih (.pure _))

theorem turns_of_steps {a' : α} (h : Steps step a bs a') (hn : bs.length ≤ n) : turns step n a bs = .ok (a', []) := by
  induction h generalizing n with
  | nil a => cases n <;> rfl
  | @cons a a' a'' bs cs hne hr _ ih =>
    cases n with
    | zero =>
      have := length_pos_of_ne_nil hne
      rw [length_append] at hn
      omega
    | succ n =>
      have hlen : cs.length ≤ n := by
        have := length_pos_of_ne_nil hne
        rw [length_append] at hn
        omega
      have hrem : (hasRemaining : Dec ε Bool) (bs ++ cs) = .ok (true, bs ++ cs) := by
        simp [hasRemaining, hne]
      rw [turns, bind_apply, hrem]
      exact (hr.bind_run _ _).trans (ih hlen)

theorem whileRemaining_of_steps {a' : α} (h : Steps step a bs a') : whileRemaining step a bs = .ok (a', []) :=
  turns_of_steps h le_rfl

theorem Returns.loop {a' : α} (h : Steps step a bs a') (hf : Returns (f a') [] b) :
    Returns (Dec.whileRemaining step a >>= f) bs b := by
  obtain ⟨rest, hf⟩ := hf
  exact ⟨rest, by rw [bind_apply, whileRemaining_of_steps h]; exact hf⟩

/-! ### Reading unknown bytes -/

/-- `d` does not panic on `src`, and what it returns satisfies `Q`. -/
def Safe (d : Dec ε α) (src : Bytes) (Q : α → Bytes → Prop) : Prop :=
  match d src with
  | .ok (a, rest) => Q a rest
  | .error (.err _) => True
  | .error .panic => False

theorem Safe.of_ok {rest : Bytes} (h : Safe d src Q) (hd : d src = .ok (a, rest)) : Q a rest := by
  rwa [Safe, hd] at h

theorem Safe.ne_panic (h : Safe d src Q) : d src ≠ .error .panic := by
  intro hd
  rwa [Safe, hd] at h

theorem Safe.pure (h : Q a src) : Safe (Pure.pure a : Dec ε α) src Q := h

theorem Safe.fail : Safe (Dec.fail e) src Q :=
  trivial

theorem Safe.ite {c : Prop} [Decidable c] {d' : Dec ε α}
    (h : Safe d src Q) (h' : Safe d' src Q) : Safe (if c then d else d') src Q := by
  split_ifs
  · exact h
  · exact h'

theorem Safe.bind {Q : β → Bytes → Prop}
    (h : Safe d src fun a rest => Safe (f a) rest Q) : Safe (d >>= f) src Q := by
  unfold Safe at h ⊢
  rw [bind_apply]
  rcases hd : d src with (e | _) | ⟨a, rest⟩
  · trivial
  · simp [hd] at h
  · rw [hd] at h
    exact h

theorem Safe.mono {P : α → Bytes → Prop} (h : Safe d src P)
    (hPQ : ∀ a rest, P a rest → Q a rest) : Safe d src Q := by
  unfold Safe at h ⊢
  rcases hd : d src with (e | _) | ⟨a, rest⟩
  · trivial
  · simp [hd] at h
  · rw [hd] at h
    exact hPQ a rest h

theorem Safe.ensure {c : Prop} [Decidable c] {Q : Unit → Bytes → Prop}
    (h : c → Q () src) : Safe (ensure c e) src Q := by
  unfold Dec.ensure
  split_ifs with hc
  · exact h hc
  · trivial

theorem Safe.remaining {Q : ℕ → Bytes → Prop} (h : Q src.length src) : Safe (Dec.remaining : Dec ε ℕ) src Q := h

theorem Safe.hasRemaining {Q : Bool → Bytes → Prop} (h : Q (!src.isEmpty) src) :
    Safe (Dec.hasRemaining : Dec ε Bool) src Q := h

theorem Safe.getU8 {Q : UInt8 → Bytes → Prop} (hne : src ≠ [])
    (h : ∀ b rest, src = b :: rest → Q b rest) : Safe (Dec.getU8 : Dec ε UInt8) src Q := by
  cases src with
  | nil => exact absurd rfl hne
  | cons b rest => exact h b rest rfl

theorem Safe.splitTo {Q : Bytes → Bytes → Prop} (hn : n ≤ src.length)
    (h : Q (src.take n) (src.drop n)) : Safe (Dec.splitTo n : Dec ε Bytes) src Q := by
  unfold Safe Dec.splitTo
  rw [if_pos hn]
  exact h

theorem Safe.within {sub : Bytes} (h : Safe d sub fun a _ => Q a src) : Safe (Dec.within d sub) src Q := by
  unfold Safe Dec.within at *
  rcases hd : d sub with (e | _) | ⟨a, rest⟩
  · trivial
  · simp [hd] at h
  · rw [hd] at h
    exact h

theorem Safe.mapM {d : α → Dec ε β} {l : List α} (h : ∀ a, Safe (d a) src fun _ rest => rest = src) :
    Safe (l.mapM d) src fun bs rest => bs.length = l.length ∧ rest = src := by
  induction l with
  | nil => exact .pure ⟨rfl, rfl⟩
  | cons a l ih =>
    rw [mapM_cons]
    refine .bind ((h a).mono ?_)
    rintro b _ rfl
    refine .bind (ih.mono ?_)
    rintro bs _ ⟨hlen, rfl⟩
    exact .pure ⟨by simp [hlen], rfl⟩

theorem Safe.turns {Inv : α → Bytes → Prop}
    (hstep : ∀ a src, src ≠ [] → Inv a src → Safe (step a) src Inv) (n : ℕ)
    (h : Inv a src) : Safe (Dec.turns step n a) src Inv := by
  induction n generalizing a src with
  | zero => exact h
  | succ n ih =>
    rw [Dec.turns]
    refine Safe.bind (Safe.hasRemaining ?_)
    cases src with
    | nil => exact h
    | cons b rest => exact Safe.bind ((hstep a _ (by simp) h).mono fun a' rest' h' => ih h')

theorem Safe.whileRemaining {Inv : α → Bytes → Prop}
    (hstep : ∀ a src, src ≠ [] → Inv a src → Safe (step a) src Inv)
    (h : Inv a src) : Safe (Dec.whileRemaining step a) src Inv :=
  Safe.turns hstep _ h

/-! ### Reading to the end -/

/-- When `d` succeeds, it has taken at least `n` bytes. -/
def Takes (n : ℕ) (d : Dec ε α) : Prop :=
  ∀ src a rest, d src = .ok (a, rest) → rest.length + n ≤ src.length

/-- When `d` succeeds, nothing is left. -/
def Drains (d : Dec ε α) : Prop := ∀ src a rest, d src = .ok (a, rest) → rest = []

theorem bind_eq_ok {rest : Bytes}
    (h : (d >>= f) src = .ok (b, rest)) : ∃ a mid, d src = .ok (a, mid) ∧ f a mid = .ok (b, rest) := by
  rw [bind_apply] at h
  rcases hd : d src with e | ⟨a, mid⟩
  · rw [hd] at h
    exact nomatch h
  · rw [hd] at h
    exact ⟨a, mid, rfl, h⟩

section Takes

variable {m n : ℕ}

variable {d : Dec ε α}

theorem Takes.of_safe (h : ∀ src, Safe d src fun _ rest => rest.length + n ≤ src.length) : Takes n d :=
  fun src _ _ hd => (h src).of_ok hd

theorem Takes.pure (a : α) : Takes 0 (Pure.pure a : Dec ε α) := by
  intro src a' rest h
  obtain ⟨rfl, rfl⟩ := Prod.mk.inj (Except.ok.inj h)
  exact le_rfl

theorem Takes.bind {f : α → Dec ε β} (hd : Takes m d) (hf : ∀ a, Takes n (f a)) : Takes (m + n) (d >>= f) := by
  intro src b rest h
  obtain ⟨a, mid, hmid, hrest⟩ := bind_eq_ok h
  have h₁ := hd src a mid hmid
  have h₂ := hf a mid b rest hrest
  omega

theorem Takes.ensure (c : Prop) [Decidable c] (e : ε) : Takes 0 (Dec.ensure c e) := by
  intro src a rest h
  rw [Dec.ensure] at h
  split_ifs at h
  · exact Takes.pure () src a rest h
  · exact nomatch h

theorem Takes.remaining : Takes 0 (Dec.remaining : Dec ε ℕ) := by
  intro src a rest h
  obtain ⟨-, rfl⟩ := Prod.mk.inj (Except.ok.inj h)
  exact le_rfl

theorem Takes.hasRemaining : Takes 0 (Dec.hasRemaining : Dec ε Bool) := by
  intro src a rest h
  obtain ⟨-, rfl⟩ := Prod.mk.inj (Except.ok.inj h)
  exact le_rfl

theorem Takes.getU8 : Takes 1 (Dec.getU8 : Dec ε UInt8) := by
  intro src a rest h
  cases src with
  | nil => exact nomatch h
  | cons b src =>
    obtain ⟨-, rfl⟩ := Prod.mk.inj (Except.ok.inj h)
    exact le_rfl

theorem Takes.mono (h : Takes m d) (hn : n ≤ m) : Takes n d := by
  intro src a rest hd
  have := h src a rest hd
  omega

end Takes

theorem Drains.bind (h : ∀ a, Drains (f a)) : Drains (d >>= f) := by
  intro src b rest hb
  obtain ⟨a, mid, -, hrest⟩ := bind_eq_ok hb
  exact h a mid b rest hrest

theorem Drains.followed (hd : Drains d) (hf : ∀ a, Takes 0 (f a)) : Drains (d >>= f) := by
  intro src b rest hb
  obtain ⟨a, mid, hmid, hrest⟩ := bind_eq_ok hb
  have hle := hf a mid b rest hrest
  rw [hd src a mid hmid] at hle
  exact eq_nil_of_length_eq_zero (Nat.le_zero.1 hle)

theorem Drains.fail (e : ε) : Drains (Dec.fail e : Dec ε α) := nofun

theorem Drains.ite {c : Prop} [Decidable c] {d' : Dec ε α} (h : Drains d) (h' : Drains d') :
    Drains (if c then d else d') := by
  split_ifs
  · exact h
  · exact h'

theorem Drains.atEnd (e : ε) (b : β) :
    Drains (do let more ← Dec.hasRemaining; Dec.ensure (more = false) e; return b : Dec ε β) := by
  intro src b' rest h
  cases src with
  | nil =>
    obtain ⟨-, rfl⟩ := Prod.mk.inj (Except.ok.inj h)
    rfl
  | cons => exact nomatch h

theorem Drains.optional (h : Drains d) : Drains (do if ← Dec.hasRemaining then d else return a : Dec ε α) := by
  intro src a' rest ha'
  cases src with
  | nil =>
    obtain ⟨-, rfl⟩ := Prod.mk.inj (Except.ok.inj ha')
    rfl
  | cons b src => exact h (b :: src) a' rest ha'

theorem Drains.turns (hstep : ∀ a, Takes 1 (step a)) (n : ℕ) {a' : α}
    {rest : Bytes} (hn : src.length ≤ n) (h : Dec.turns step n a src = .ok (a', rest)) : rest = [] := by
  induction n generalizing a src with
  | zero =>
    obtain ⟨-, rfl⟩ := Prod.mk.inj (Except.ok.inj h)
    exact eq_nil_of_length_eq_zero (Nat.le_zero.1 hn)
  | succ n ih =>
    cases src with
    | nil =>
      obtain ⟨-, rfl⟩ := Prod.mk.inj (Except.ok.inj h)
      rfl
    | cons b src =>
      obtain ⟨a₁, mid, hmid, hrest⟩ := bind_eq_ok (d := step a) h
      have hlen := hstep a _ _ _ hmid
      exact ih (by omega) hrest

theorem Drains.whileRemaining (hstep : ∀ a, Takes 1 (step a)) (a : α) : Drains (Dec.whileRemaining step a) :=
  fun _ _ _ h => Drains.turns hstep _ le_rfl h

end Dec

/-! ## Writers -/

/-- A writer: the answer and the buffer, which keeps what was written before a failure. -/
def Enc (ε α : Type) := Bytes → Except (Fault ε) α × Bytes

namespace Enc

instance : Monad (Enc ε) where
  pure a := fun buf => (.ok a, buf)
  bind e f := fun buf =>
    match e buf with
    | (.ok a, buf') => f a buf'
    | (.error err, buf') => (.error err, buf')

def fail (e : ε) : Enc ε α := fun buf => (.error (.err e), buf)

def panic : Enc ε α := fun buf => (.error .panic, buf)

def putSlice (bs : Bytes) : Enc ε Unit := fun buf => (.ok (), buf ++ bs)

def putU8 (b : UInt8) : Enc ε Unit := putSlice [b]

def len : Enc ε ℕ := fun buf => (.ok buf.length, buf)

def lift (x : Except (Fault ε) α) : Enc ε α := fun buf => (x, buf)

theorem bind_apply (e : Enc ε α) (f : α → Enc ε β) (buf : Bytes) :
    (e >>= f) buf =
      match e buf with
      | (.ok a, buf') => f a buf'
      | (.error err, buf') => (.error err, buf') := rfl

/-- `e` appends `bs` if `C` holds and fails otherwise. -/
def Emits (e : Enc ε Unit) (C : Prop) (bs : Bytes) : Prop :=
  ∀ buf, (C → e buf = (.ok (), buf ++ bs)) ∧ (¬ C → ∃ f buf', e buf = (.error f, buf'))

variable {e : Enc ε Unit} {bs : Bytes}

theorem Emits.run {C : Prop} (h : Emits e C bs) (hC : C)
    (buf : Bytes) : e buf = (.ok (), buf ++ bs) := (h buf).1 hC

theorem Emits.of_ok {C : Prop} {buf buf' : Bytes} (h : Emits e C bs)
    (he : e buf = (.ok (), buf')) : C ∧ buf' = buf ++ bs := by
  by_cases hC : C
  · rw [h.run hC] at he
    cases he
    exact ⟨hC, rfl⟩
  · obtain ⟨f, buf'', hf⟩ := (h buf).2 hC
    rw [he] at hf
    cases hf

theorem Emits.congr {C D : Prop} {cs : Bytes} (h : Emits e C bs)
    (hCD : C ↔ D) (hbs : C → bs = cs) : Emits e D cs := by
  intro buf
  refine ⟨fun hD => ?_, fun hD => (h buf).2 fun hC => hD (hCD.1 hC)⟩
  rw [h.run (hCD.2 hD), hbs (hCD.2 hD)]

theorem Emits.pure : Emits (Pure.pure () : Enc ε Unit) True [] := fun buf =>
  ⟨fun _ => by simp [Pure.pure], fun h => absurd trivial h⟩

theorem Emits.fail (e : ε) : Emits (Enc.fail e) False [] := fun _ =>
  ⟨fun h => h.elim, fun _ => ⟨_, _, rfl⟩⟩

theorem Emits.panic : Emits (Enc.panic : Enc ε Unit) False [] := fun _ =>
  ⟨fun h => h.elim, fun _ => ⟨_, _, rfl⟩⟩

theorem Emits.putSlice (bs : Bytes) : Emits (Enc.putSlice bs : Enc ε Unit) True bs := fun _ =>
  ⟨fun _ => rfl, fun h => absurd trivial h⟩

theorem Emits.putU8 (b : UInt8) : Emits (Enc.putU8 b : Enc ε Unit) True [b] := Emits.putSlice [b]

theorem Emits.bind {f : Unit → Enc ε Unit} {C D : Prop} {cs : Bytes}
    (he : Emits e C bs) (hf : Emits (f ()) D cs) : Emits (e >>= f) (C ∧ D) (bs ++ cs) := by
  intro buf
  rw [bind_apply]
  by_cases hC : C
  · rw [he.run hC]
    refine ⟨fun h => ?_, fun h => (hf _).2 fun hD => h ⟨hC, hD⟩⟩
    rw [← append_assoc]
    exact hf.run h.2 _
  · obtain ⟨err, buf', h⟩ := (he buf).2 hC
    rw [h]
    exact ⟨fun h' => absurd h'.1 hC, fun _ => ⟨_, _, rfl⟩⟩

/-- `e` appends `bs` if `C` holds.  Otherwise it fails behind what it has written so far: with an error
if `R` holds, and with a panic if not. -/
def Spec (e : Enc ε Unit) (C R : Prop) (bs : Bytes) : Prop :=
  ∀ buf, (C → e buf = (.ok (), buf ++ bs)) ∧
    (¬ C → ∃ f written, e buf = (.error f, buf ++ written) ∧ (f ≠ .panic ↔ R))

/-- `e` appends `bs` if `C` holds and returns an error otherwise. -/
abbrev Strict (e : Enc ε Unit) (C : Prop) (bs : Bytes) : Prop := Spec e C True bs

section Spec

variable {e : Enc ε Unit} {f : Unit → Enc ε Unit} {C D R S : Prop} {bs cs buf : Bytes}

theorem Spec.run (h : Spec e C R bs) (hC : C) (buf : Bytes) : e buf = (.ok (), buf ++ bs) :=
  (h buf).1 hC

theorem Spec.emits (h : Spec e C R bs) : Emits e C bs := by
  refine fun buf => ⟨(h buf).1, fun hC => ?_⟩
  obtain ⟨f, written, hf, -⟩ := (h buf).2 hC
  exact ⟨f, _, hf⟩

theorem Spec.err_iff (h : Spec e C R bs) (buf : Bytes) :
    (∃ err buf', e buf = (.error (.err err), buf')) ↔ ¬ C ∧ R := by
  by_cases hC : C
  · simp [h.run hC, hC]
  · obtain ⟨f, written, hf, hR⟩ := (h buf).2 hC
    rw [hf, ← hR]
    cases f <;> simp [hC]

theorem Spec.panic_iff (h : Spec e C R bs) (buf : Bytes) :
    (e buf).1 = .error .panic ↔ ¬ C ∧ ¬ R := by
  by_cases hC : C
  · simp [h.run hC, hC]
  · obtain ⟨f, written, hf, hR⟩ := (h buf).2 hC
    rw [hf, ← hR]
    cases f <;> simp [hC]

theorem Spec.isPrefix (h : Spec e C R bs) : buf <+: (e buf).2 := by
  by_cases hC : C
  · rw [h.run hC]
    exact prefix_append _ _
  · obtain ⟨f, written, hf, -⟩ := (h buf).2 hC
    rw [hf]
    exact prefix_append _ _

theorem Spec.congr (h : Spec e C R bs) (hCD : C ↔ D) (hRS : ¬ C → (R ↔ S)) (hbs : C → bs = cs) :
    Spec e D S cs := by
  refine fun buf => ⟨fun hD => ?_, fun hD => ?_⟩
  · rw [h.run (hCD.2 hD), hbs (hCD.2 hD)]
  · have hC : ¬ C := fun hC => hD (hCD.1 hC)
    obtain ⟨f, written, hf, hR⟩ := (h buf).2 hC
    exact ⟨f, written, hf, hR.trans (hRS hC)⟩

theorem Strict.congr (h : Strict e C bs) (hCD : C ↔ D) (hbs : C → bs = cs) : Strict e D cs :=
  Spec.congr h hCD (fun _ => Iff.rfl) hbs

theorem Strict.pure : Strict (Pure.pure () : Enc ε Unit) True [] := fun buf =>
  ⟨fun _ => by simp [Pure.pure], fun h => absurd trivial h⟩

theorem Strict.fail (err : ε) : Strict (Enc.fail err) False [] := fun buf =>
  ⟨fun h => h.elim, fun _ => ⟨_, [], by rw [append_nil]; rfl, by simp⟩⟩

theorem Spec.panic : Spec (Enc.panic : Enc ε Unit) False False [] := fun buf =>
  ⟨fun h => h.elim, fun _ => ⟨_, [], by rw [append_nil]; rfl, by simp⟩⟩

theorem Strict.putSlice (bs : Bytes) : Strict (Enc.putSlice bs : Enc ε Unit) True bs := fun _ =>
  ⟨fun _ => rfl, fun h => absurd trivial h⟩

theorem Strict.putU8 (b : UInt8) : Strict (Enc.putU8 b : Enc ε Unit) True [b] := Strict.putSlice [b]

theorem Spec.bind (he : Spec e C R bs) (hf : C → Spec (f ()) D S cs) :
    Spec (e >>= f) (C ∧ D) ((¬ C → R) ∧ (C → S)) (bs ++ cs) := by
  intro buf
  rw [bind_apply]
  by_cases hC : C
  · rw [he.run hC]
    refine ⟨fun h => ?_, fun h => ?_⟩
    · rw [← append_assoc]
      exact (hf hC).run h.2 _
    · obtain ⟨err, written, herr, hS⟩ := (hf hC (buf ++ bs)).2 fun hD => h ⟨hC, hD⟩
      exact ⟨err, bs ++ written, by rw [← append_assoc]; exact herr, by simp [hS, hC]⟩
  · obtain ⟨err, written, herr, hR⟩ := (he buf).2 hC
    rw [herr]
    exact ⟨fun h => absurd h.1 hC, fun _ => ⟨err, written, rfl, by simp [hR, hC]⟩⟩

theorem Strict.bind (he : Strict e C bs) (hf : Strict (f ()) D cs) :
    Strict (e >>= f) (C ∧ D) (bs ++ cs) :=
  (Spec.bind he fun _ => hf).congr Iff.rfl (by simp) fun _ => rfl

theorem Strict.bind_spec (he : Strict e C bs) (hf : Spec (f ()) D S cs) :
    Spec (e >>= f) (C ∧ D) (C → S) (bs ++ cs) :=
  (Spec.bind he fun _ => hf).congr Iff.rfl (by simp) fun _ => rfl

theorem Spec.andThen (he : Strict e True bs) (hf : Spec (f ()) D S cs) : Spec (e >>= f) D S (bs ++ cs) :=
  (he.bind_spec hf).congr (by simp) (by simp) fun _ => rfl

theorem Spec.lift {x : Except (Fault ε) α} {a : α} (hx : x = .ok a) {f : α → Enc ε Unit}
    (h : Spec (f a) C R bs) : Spec (Enc.lift x >>= f) C R bs := by
  subst hx
  exact h

theorem Spec.measured {k : ℕ → Enc ε Unit} (he : Spec e C R bs)
    (hk : C → Spec (k bs.length) D S cs) :
    Spec (do let start ← Enc.len; e; let now ← Enc.len; k (now - start)) (C ∧ D)
      ((¬ C → R) ∧ (C → S)) (bs ++ cs) := by
  intro buf
  rw [bind_apply, Enc.len]
  simp only
  rw [bind_apply]
  by_cases hC : C
  · -- the difference of the lengths is what the first part has written
    have hbind := Spec.bind (f := fun _ => k bs.length) he hk buf
    rw [bind_apply, he.run hC] at hbind
    rw [he.run hC]
    simp only
    rw [bind_apply, Enc.len]
    simpa only [length_append, Nat.add_sub_cancel_left] using hbind
  · obtain ⟨err, written, herr, hR⟩ := (he buf).2 hC
    rw [herr]
    exact ⟨fun h => absurd h.1 hC, fun _ => ⟨err, written, rfl, by simp [hR, hC]⟩⟩

theorem Strict.measured {k : ℕ → Enc ε Unit} (he : Strict e C bs)
    (hk : C → Strict (k bs.length) D cs) :
    Strict (do let start ← Enc.len; e; let now ← Enc.len; k (now - start)) (C ∧ D) (bs ++ cs) :=
  (Spec.measured he hk).congr Iff.rfl (by simp) fun _ => rfl

theorem Spec.forM {f : α → Enc ε Unit} {C : α → Prop} {w : α → Bytes} (l : List α)
    (h : ∀ a, Spec (f a) (C a) R (w a)) : Spec (l.forM f) (∀ a ∈ l, C a) R (l.flatMap w) := by
  induction l with
  | nil => exact Spec.congr Strict.pure (by simp) (fun hf => absurd trivial hf) fun _ => rfl
  | cons a l ih =>
    refine ((h a).bind fun _ => ih).congr (by simp) (fun _ => ?_) fun _ => by simp
    by_cases hC : C a <;> simp [hC]

theorem Spec.putU8_isPrefix (hf : Spec (f ()) D S cs) (b : UInt8) (buf : Bytes) :
    buf ++ [b] <+: ((Enc.putU8 b >>= f) buf).2 := hf.isPrefix

end Spec

/-- An error leaves the buffer as it was. -/
def Atomic (e : Enc ε Unit) : Prop :=
  ∀ buf err buf', e buf = (.error (.err err), buf') → buf' = buf

/-- A writer that begins with a byte is atomic only if it returns no errors. -/
theorem Spec.atomic_iff {C R : Prop} {b : UInt8}
    (h : Spec e C R bs) (hb : ∀ buf, buf ++ [b] <+: (e buf).2) : Atomic e ↔ (R → C) := by
  constructor
  · intro hatomic hR
    by_contra hC
    obtain ⟨err, buf', he⟩ := (h.err_iff []).2 ⟨hC, hR⟩
    have hne : [b] <+: buf' := by
      have hpre := hb []
      rwa [he] at hpre
    rw [hatomic _ _ _ he] at hne
    exact absurd (prefix_nil.1 hne) (cons_ne_nil _ _)
  · intro hRC buf err buf' he
    obtain ⟨hC, hR⟩ := (h.err_iff buf).1 ⟨err, buf', he⟩
    exact absurd (hRC hR) hC

end Enc

end FerroMq.Lib
