import FerroMq.Lib.Wire

/-!
# Incremental decoders

A decoder is called again and again on a growing buffer.  `Incremental` collects what makes it independent of
how its input is cut into chunks (`receive_eq`), and `Accounts` what makes it take every byte exactly once
(`Accounts.drain`).
-/

namespace FerroMq.Lib

open List

variable {σ ι ε : Type}

/-- One call: the answer, and the state and the buffer afterwards. -/
abbrev Poll (σ ι ε : Type) := σ → Bytes → Except ε (Option ι) × σ × Bytes

inductive Ending (σ ε : Type)
  | waiting (s : σ) (buf : Bytes)
  | failed (e : ε)

abbrev Outcome (σ ι ε : Type) := List ι × Ending σ ε

def Outcome.andThen (r : Outcome σ ι ε) (k : σ → Bytes → Outcome σ ι ε) : Outcome σ ι ε :=
  match r with
  | (items, .waiting s buf) => (items ++ (k s buf).1, (k s buf).2)
  | (items, .failed e) => (items, .failed e)

def Outcome.cons (i : ι) (r : Outcome σ ι ε) : Outcome σ ι ε := (i :: r.1, r.2)

theorem Outcome.andThen_cons (i : ι) (r : Outcome σ ι ε) (k : σ → Bytes → Outcome σ ι ε) :
    (r.cons i).andThen k = (r.andThen k).cons i := by
  rcases r with ⟨items, _ | _⟩ <;> rfl

theorem Outcome.andThen_congr {r : Outcome σ ι ε} {k k' : σ → Bytes → Outcome σ ι ε}
    (h : ∀ s buf, r.2 = .waiting s buf → k s buf = k' s buf) : r.andThen k = r.andThen k' := by
  rcases r with ⟨items, ⟨s, buf⟩ | e⟩
  · simp only [Outcome.andThen, h s buf rfl]
  · rfl

namespace Poll

def drain (poll : Poll σ ι ε) : ℕ → σ → Bytes → Outcome σ ι ε
  | 0, s, buf => ([], .waiting s buf)
  | n + 1, s, buf =>
    match poll s buf with
    | (.ok none, s', buf') => ([], .waiting s' buf')
    | (.ok (some i), s', buf') => (drain poll n s' buf').cons i
    | (.error e, _, _) => ([], .failed e)

/-- Call until no item comes.  Every item takes away from the buffer or the weight of the state. -/
def drainAll (poll : Poll σ ι ε) (weight : σ → ℕ) (s : σ) (buf : Bytes) : Outcome σ ι ε :=
  drain poll (weight s + buf.length + 1) s buf

def receive (poll : Poll σ ι ε) (weight : σ → ℕ) : σ → Bytes → List Bytes → Outcome σ ι ε
  | s, buf, [] => ([], .waiting s buf)
  | s, buf, chunk :: chunks =>
    (drainAll poll weight s (buf ++ chunk)).andThen fun s' buf' => receive poll weight s' buf' chunks

/-! ## Independence of the chunks -/

/-- An answer does not depend on what comes later, and a request for more can be resumed. -/
structure Incremental (poll : Poll σ ι ε) (weight : σ → ℕ) : Prop where
  item : ∀ {s buf i s' buf'}, poll s buf = (.ok (some i), s', buf') →
    ∀ more, poll s (buf ++ more) = (.ok (some i), s', buf' ++ more)
  error : ∀ {s buf e s' buf'}, poll s buf = (.error e, s', buf') →
    ∀ more, poll s (buf ++ more) = (.error e, s', buf' ++ more)
  resume : ∀ {s buf s' buf'}, poll s buf = (.ok none, s', buf') →
    ∀ more, poll s (buf ++ more) = poll s' (buf' ++ more)
  progress : ∀ {s buf i s' buf'}, poll s buf = (.ok (some i), s', buf') →
    weight s' + buf'.length < weight s + buf.length

variable {poll : Poll σ ι ε} {weight : σ → ℕ} {s : σ} {buf : Bytes}

variable {s' : σ} {buf' : Bytes}

theorem drain_of_none (h : poll s buf = (.ok none, s', buf')) (n : ℕ) :
    drain poll (n + 1) s buf = ([], .waiting s' buf') := by
  rw [drain, h]

theorem drain_of_item {i : ι} (h : poll s buf = (.ok (some i), s', buf'))
    (n : ℕ) : drain poll (n + 1) s buf = (drain poll n s' buf').cons i := by
  rw [drain, h]

theorem drain_of_error {e : ε} (h : poll s buf = (.error e, s', buf'))
    (n : ℕ) : drain poll (n + 1) s buf = ([], .failed e) := by
  rw [drain, h]

theorem Incremental.drain_eq (hp : Incremental poll weight) {n m : ℕ}
    (hn : weight s + buf.length < n) (hm : weight s + buf.length < m) :
    drain poll n s buf = drain poll m s buf := by
  induction n generalizing m s buf with
  | zero => omega
  | succ n ih =>
    obtain ⟨m, rfl⟩ : ∃ k, m = k + 1 := ⟨m - 1, by omega⟩
    rcases h : poll s buf with ⟨_ | (_ | i), s', buf'⟩
    · rw [drain_of_error h, drain_of_error h]
    · rw [drain_of_none h, drain_of_none h]
    · have := hp.progress h
      rw [drain_of_item h, drain_of_item h]
      exact congrArg (Outcome.cons i) (ih (by omega) (by omega))

theorem Incremental.drainAll_of_item (hp : Incremental poll weight) {i : ι}
    (h : poll s buf = (.ok (some i), s', buf')) :
    drainAll poll weight s buf = (drainAll poll weight s' buf').cons i := by
  have := hp.progress h
  rw [drainAll, drain_of_item h, hp.drain_eq (by omega) (Nat.lt_succ_self _), drainAll]

theorem Incremental.drainAll_waiting (hp : Incremental poll weight)
    (h : (drainAll poll weight s buf).2 = .waiting s' buf') : poll s' buf' = (.ok none, s', buf') := by
  induction hm : weight s + buf.length using Nat.strongRecOn generalizing s buf with
  | _ m ih =>
    subst hm
    rcases hpoll : poll s buf with ⟨_ | (_ | i), s₁, buf₁⟩
    · rw [drainAll, drain_of_error hpoll] at h
      cases h
    · rw [drainAll, drain_of_none hpoll] at h
      cases h
      have := hp.resume hpoll []
      rw [append_nil, append_nil, hpoll] at this
      exact this.symm
    · rw [hp.drainAll_of_item hpoll] at h
      exact ih _ (hp.progress hpoll) h rfl

theorem Incremental.drainAll_append (hp : Incremental poll weight) (more : Bytes) :
    drainAll poll weight s (buf ++ more) =
      (drainAll poll weight s buf).andThen fun s' buf' => drainAll poll weight s' (buf' ++ more) := by
  induction hm : weight s + buf.length using Nat.strongRecOn generalizing s buf with
  | _ m ih =>
    subst hm
    rcases h : poll s buf with ⟨e | (_ | i), s', buf'⟩
    · rw [drainAll, drainAll, drain_of_error h, drain_of_error (hp.error h more)]
      rfl
    · have hresume := hp.resume h more
      rw [drainAll, drainAll, drain_of_none h]
      change drain poll (_ + 1) _ _ = drain poll (_ + 1) _ _
      rcases h' : poll s' (buf' ++ more) with ⟨e | (_ | i), s'', buf''⟩
      · rw [drain_of_error h', drain_of_error (hresume.trans h')]
      · rw [drain_of_none h', drain_of_none (hresume.trans h')]
      · have hlt := hp.progress h'
        have hlt' := hp.progress (hresume.trans h')
        rw [drain_of_item h', drain_of_item (hresume.trans h')]
        exact congrArg (Outcome.cons i) (hp.drain_eq (by omega) (by omega))
    · rw [hp.drainAll_of_item h, hp.drainAll_of_item (hp.item h more), Outcome.andThen_cons,
        ih _ (hp.progress h) rfl]

theorem Incremental.receive_eq (hp : Incremental poll weight)
    (hwait : poll s buf = (.ok none, s, buf)) (chunks : List Bytes) :
    receive poll weight s buf chunks = drainAll poll weight s (buf ++ chunks.flatten) := by
  induction chunks generalizing s buf with
  | nil => rw [flatten_nil, append_nil, drainAll, drain_of_none hwait, receive]
  | cons chunk chunks ih =>
    rw [receive, flatten_cons, ← append_assoc, hp.drainAll_append chunks.flatten]
    exact Outcome.andThen_congr fun s' buf' h => ih (hp.drainAll_waiting h)

/-- Frames that are read one after the other are received, however they are cut. -/
theorem Incremental.receive_frames (hp : Incremental poll weight) {α : Type} {frame : α → Bytes}
    {item : α → ι} {next : σ → α → σ} {R : σ → Prop}
    (hwait : ∀ s, R s → poll s [] = (.ok none, s, [])) {as : List α}
    (hframe : ∀ a ∈ as, ∀ s, R s → R (next s a) ∧
      ∀ rest, poll s (frame a ++ rest) = (.ok (some (item a)), next s a, rest))
    (hs : R s) {chunks : List Bytes} (hchunks : chunks.flatten = as.flatMap frame) :
    receive poll weight s [] chunks = (as.map item, .waiting (as.foldl next s) []) := by
  rw [hp.receive_eq (hwait s hs), nil_append, hchunks]
  clear hchunks
  induction as generalizing s with
  | nil => rw [flatMap_nil, drainAll, drain_of_none (hwait s hs)]; rfl
  | cons a as ih =>
    obtain ⟨hnext, hpoll⟩ := hframe a mem_cons_self s hs
    rw [flatMap_cons, hp.drainAll_of_item (hpoll _),
      ih (fun b hb => hframe b (mem_cons_of_mem _ hb)) hnext]
    rfl

/-! ## Accounting for the bytes -/

/-- `Partial s hdr` says that in state `s` the bytes `hdr` of the next item are already taken, and
`Frame f i` that `f` are the bytes of `i`. -/
structure Accounts (poll : Poll σ ι ε) (Partial : σ → Bytes → Prop) (Frame : Bytes → ι → Prop) :
    Prop where
  item : ∀ {s hdr buf i s' buf'}, Partial s hdr → poll s buf = (.ok (some i), s', buf') →
    ∃ body, buf = body ++ buf' ∧ Frame (hdr ++ body) i ∧ Partial s' []
  none : ∀ {s hdr buf s' buf'}, Partial s hdr → poll s buf = (.ok none, s', buf') →
    ∃ taken, buf = taken ++ buf' ∧ Partial s' (hdr ++ taken)

variable {Partial : σ → Bytes → Prop} {Frame : Bytes → ι → Prop}

/-- The rest of the stream behind the items of a run. -/
def Rest (poll : Poll σ ι ε) (Partial : σ → Bytes → Prop) (tail : Bytes) : Ending σ ε → Prop
  | .waiting s buf => ∃ hdr, Partial s hdr ∧ tail = hdr ++ buf
  | .failed e => ∃ s hdr buf, Partial s hdr ∧ tail = hdr ++ buf ∧ (poll s buf).1 = .error e

theorem Accounts.drain (ha : Accounts poll Partial Frame) {hdr : Bytes} (hs : Partial s hdr) (n : ℕ) :
    ∃ frames tail, hdr ++ buf = frames.flatten ++ tail ∧
      List.Forall₂ Frame frames (drain poll n s buf).1 ∧
      Rest poll Partial tail (Poll.drain poll n s buf).2 := by
  induction n generalizing s hdr buf with
  | zero => exact ⟨[], hdr ++ buf, rfl, .nil, hdr, hs, rfl⟩
  | succ n ih =>
    rcases h : poll s buf with ⟨e | (_ | i), s', buf'⟩
    · rw [drain_of_error h]
      exact ⟨[], hdr ++ buf, rfl, .nil, s, hdr, buf, hs, rfl, by rw [h]⟩
    · rw [drain_of_none h]
      obtain ⟨taken, rfl, hs'⟩ := ha.none hs h
      exact ⟨[], hdr ++ (taken ++ buf'), rfl, .nil, _, hs', by rw [append_assoc]⟩
    · rw [drain_of_item h]
      obtain ⟨body, rfl, hframe, hs'⟩ := ha.item hs h
      obtain ⟨frames, tail, hstream, hall, hrest⟩ := @ih s' buf' [] hs'
      refine ⟨(hdr ++ body) :: frames, tail, ?_, .cons hframe hall, hrest⟩
      rw [flatten_cons, append_assoc (hdr ++ body), ← hstream, nil_append,
        append_assoc]

/-! ## Decoders with a larger state -/

section Extend

variable {τ : Type} {inner : τ → Poll σ ι ε} {get : τ → σ} {put : τ → Except ε (Option ι) → σ → τ}

def extend (inner : τ → Poll σ ι ε) (get : τ → σ) (put : τ → Except ε (Option ι) → σ → τ) :
    Poll τ ι ε := fun t buf =>
  ((inner t (get t) buf).1, put t (inner t (get t) buf).1 (inner t (get t) buf).2.1,
    (inner t (get t) buf).2.2)

theorem extend_eq {t t' : τ} {buf buf' : Bytes} {a : Except ε (Option ι)}
    (h : extend inner get put t buf = (a, t', buf')) :
    ∃ s', inner t (get t) buf = (a, s', buf') ∧ t' = put t a s' := by
  rcases hi : inner t (get t) buf with ⟨a', s', buf''⟩
  simp only [extend, hi, Prod.mk.injEq] at h
  obtain ⟨rfl, rfl, rfl⟩ := h
  exact ⟨s', rfl, rfl⟩

theorem extend_apply {t : τ} {s' : σ} {buf buf' : Bytes} {a : Except ε (Option ι)}
    (h : inner t (get t) buf = (a, s', buf')) :
    extend inner get put t buf = (a, put t a s', buf') := by
  rw [extend, h]

theorem Incremental.extend (h : ∀ t, Incremental (inner t) weight)
    (hget : ∀ t a s, get (put t a s) = s) (hinner : ∀ t s, inner (put t (.ok none) s) = inner t)
    (hput : ∀ t s a s', put (put t (.ok none) s) a s' = put t a s') :
    Incremental (extend inner get put) fun t => weight (get t) where
  item {t buf i t' buf'} ht more := by
    obtain ⟨s', hi, rfl⟩ := extend_eq ht
    exact extend_apply ((h t).item hi more)
  error {t buf e t' buf'} ht more := by
    obtain ⟨s', hi, rfl⟩ := extend_eq ht
    exact extend_apply ((h t).error hi more)
  resume {t buf t' buf'} ht more := by
    obtain ⟨s', hi, rfl⟩ := extend_eq ht
    have hresume := (h t).resume hi more
    simp only [Poll.extend, hget, hinner, hput, hresume]
  progress {t buf i t' buf'} ht := by
    obtain ⟨s', hi, rfl⟩ := extend_eq ht
    rw [hget]
    exact (h t).progress hi

theorem Accounts.extend (h : ∀ t, Accounts (inner t) Partial Frame)
    (hget : ∀ t a s, get (put t a s) = s) :
    Accounts (extend inner get put) (fun t => Partial (get t)) Frame where
  item {t hdr buf i t' buf'} hs ht := by
    obtain ⟨s', hi, rfl⟩ := extend_eq ht
    rw [hget]
    exact (h t).item hs hi
  none {t hdr buf t' buf'} hs ht := by
    obtain ⟨s', hi, rfl⟩ := extend_eq ht
    rw [hget]
    exact (h t).none hs hi

end Extend

end Poll

end FerroMq.Lib
