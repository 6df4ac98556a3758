import FerroMq.Router.Snapshot

/-!
# Restoring from damaged bytes

`restore` panics if a length field points behind the end of the bytes or a sum of positions overflows, and at a
filter that is not valid it returns an error with the counter set and the relations cleared
(`damaged_restores`).  All other bytes are restored or leave the router as it was (`safe_iff`).
-/

namespace FerroMq

open Lib

namespace ClusterRouter

/-- The maps, the topic tree and the counters are as they were. -/
structure Unchanged (s r : ClusterRouter) : Prop where
  relations : r.inner.relations = s.inner.relations
  topics : ∀ ks, r.inner.topics.get ks = s.inner.topics.get ks
  clientStates : r.clientStates = s.clientStates
  topicsCount : r.inner.topicsCount = s.inner.topicsCount
  relationsCount : r.inner.relationsCount = s.inner.relationsCount

abbrev Slice := {bs : Bytes // bs.length < 2 ^ 63}

variable (fmt : SectionFormats)

/-- No index is out of bounds and no sum overflows, and after an error the router is unchanged. -/
structure Safe (r : ClusterRouter) (snapshot : Slice) : Prop where
  inBounds : (restore fmt true r snapshot.1).1 ≠ .error .panic
  unchanged : ∀ overflowChecks e, (restore fmt overflowChecks r snapshot.1).1 = .error e →
    r.Unchanged (restore fmt overflowChecks r snapshot.1).2

/-! ## Where the sections are -/

def lengthAt (snapshot : Bytes) (start : ℕ) : ℕ := fromLeBytes ((snapshot.drop start).take 8)

def sectionEnd (snapshot : Bytes) (start : ℕ) : ℕ := start + 8 + lengthAt snapshot start

def readSection {α : Type} (fmt : Format α) (snapshot : Bytes) (start : ℕ) : Option α :=
  fmt.read ((snapshot.drop (start + 8)).take (lengthAt snapshot start))

section Bounds

variable {snapshot : Slice} {start len : ℕ}

theorem readLen_of_le (overflowChecks : Bool) (h : start + 8 ≤ snapshot.1.length) :
    readLen overflowChecks snapshot.1 start = .ok (lengthAt snapshot.1 start) := by
  have hlen := snapshot.2
  rw [readLen, addWord_eq (by omega)]
  simp only [bind, Except.bind, slice, pure, Except.pure]
  rw [if_pos ⟨Nat.le_add_right _ _, h⟩, Nat.add_sub_cancel_left]
  rfl

theorem readLen_of_lt (h : snapshot.1.length < start + 8) :
    readLen true snapshot.1 start = .error .panic := by
  rw [readLen, addWord]
  split_ifs with hword
  · simp only [bind, Except.bind, slice]
    rw [if_neg (by omega)]
  · rfl
  · contradiction

theorem decodeWithLengthPrefix_of_le {α : Type} (fmt : Format α) (overflowChecks : Bool)
    (h : start + len ≤ snapshot.1.length) :
    decodeWithLengthPrefix fmt overflowChecks snapshot.1 start len =
      (fmt.read ((snapshot.1.drop start).take len)).elim (.error (.err .format)) .ok := by
  have hlen := snapshot.2
  rw [decodeWithLengthPrefix, addWord_eq (by omega)]
  simp only [bind, Except.bind, slice]
  rw [if_pos ⟨Nat.le_add_right _ _, h⟩, Nat.add_sub_cancel_left]

theorem decodeWithLengthPrefix_of_lt {α : Type} (fmt : Format α) (h : snapshot.1.length < start + len) :
    decodeWithLengthPrefix fmt true snapshot.1 start len = .error .panic := by
  rw [decodeWithLengthPrefix, addWord]
  split_ifs with hword
  · simp only [bind, Except.bind, slice]
    rw [if_neg (by omega)]
  · rfl
  · contradiction

end Bounds

def clientStatesAt (snapshot : Bytes) : ℕ := sectionEnd snapshot 0

def topicsCountAt (snapshot : Bytes) : ℕ := sectionEnd snapshot (clientStatesAt snapshot)

def relationsCountAt (snapshot : Bytes) : ℕ := sectionEnd snapshot (topicsCountAt snapshot)

def decoded {α : Type} (o : Option α) : Except (Fault RestoreError) α :=
  o.elim (.error (.err .format)) .ok

section Decode

variable {fmt} {snapshot : Slice}

/-- With all length fields in the bytes, only the last section can be out of bounds. -/
theorem decode_of_lengths (overflowChecks : Bool)
    (h : relationsCountAt snapshot.1 + 8 ≤ snapshot.1.length) :
    Sections.decode fmt overflowChecks snapshot.1 = (do
      let (relations, clientStates) ← join (decoded (readSection fmt.relations snapshot.1 0))
        (decoded (readSection fmt.clientStates snapshot.1 (clientStatesAt snapshot.1)))
      let topicsCount ← decoded (readSection fmt.counter snapshot.1 (topicsCountAt snapshot.1))
      let relationsCount ← decodeWithLengthPrefix fmt.counter overflowChecks snapshot.1
        (relationsCountAt snapshot.1 + 8) (lengthAt snapshot.1 (relationsCountAt snapshot.1))
      return { relations, clientStates, topicsCount, relationsCount }) := by
  have hlen := snapshot.2
  obtain ⟨a, ha⟩ : ∃ a, lengthAt snapshot.1 0 = a := ⟨_, rfl⟩
  obtain ⟨b, hb⟩ : ∃ b, lengthAt snapshot.1 (clientStatesAt snapshot.1) = b := ⟨_, rfl⟩
  obtain ⟨c, hc⟩ : ∃ c, lengthAt snapshot.1 (topicsCountAt snapshot.1) = c := ⟨_, rfl⟩
  have h₁ : clientStatesAt snapshot.1 = 0 + 8 + a := congrArg (0 + 8 + ·) ha
  have h₂ : topicsCountAt snapshot.1 = clientStatesAt snapshot.1 + 8 + b := congrArg (_ + ·) hb
  have h₃ : relationsCountAt snapshot.1 = topicsCountAt snapshot.1 + 8 + c := congrArg (_ + ·) hc
  have hread (start next : ℕ) (heq : next = start) (hle : start + 8 ≤ snapshot.1.length) :
      readLen overflowChecks snapshot.1 next = .ok (lengthAt snapshot.1 start) := by
    subst heq
    exact readLen_of_le overflowChecks hle
  have hsection {α : Type} (fmt : Format α) (start next len : ℕ) (heq : next = start + 8)
      (hl : lengthAt snapshot.1 start = len) (hle : start + 8 + len ≤ snapshot.1.length) :
      decodeWithLengthPrefix fmt overflowChecks snapshot.1 next len =
        decoded (readSection fmt snapshot.1 start) := by
    subst heq hl
    exact decodeWithLengthPrefix_of_le fmt overflowChecks hle
  unfold Sections.decode
  rw [hread 0 0 rfl (by omega), ha]
  simp (disch := omega) only [bind, Except.bind, addWord_eq]
  rw [hread (clientStatesAt snapshot.1) _ (by omega) (by omega), hb]
  simp (disch := omega) only [addWord_eq]
  rw [hread (topicsCountAt snapshot.1) _ (by omega) (by omega), hc]
  simp (disch := omega) only [addWord_eq]
  rw [hread (relationsCountAt snapshot.1) _ (by omega) (by omega)]
  dsimp only
  rw [hsection fmt.relations 0 _ _ rfl ha (by omega),
    hsection fmt.clientStates (clientStatesAt snapshot.1) _ _ (by omega) hb (by omega),
    hsection fmt.counter (topicsCountAt snapshot.1) _ _ (by omega) hc (by omega)]
  have hstart : 8 + (8 + (8 + 8 + a) + b) + c = relationsCountAt snapshot.1 + 8 := by omega
  rw [hstart]

theorem addWord_readLen_of_lt {α : Type} {start len : ℕ} (h : snapshot.1.length < start + len + 8)
    (k : ℕ → ℕ → Except (Fault RestoreError) α) :
    (addWord true start len >>= fun next => readLen true snapshot.1 next >>= k next) = .error .panic := by
  rw [addWord]
  split_ifs
  · exact congrArg (· >>= k (start + len)) (readLen_of_lt h)
  · rfl
  · contradiction

theorem ok_bind {α β : Type} (a : α) (f : α → Except (Fault RestoreError) β) :
    (Except.ok a >>= f) = f a := rfl

theorem decode_of_lengths_lt (h : snapshot.1.length < relationsCountAt snapshot.1 + 8) :
    Sections.decode fmt true snapshot.1 = .error .panic := by
  have hlen := snapshot.2
  unfold Sections.decode
  rcases Nat.lt_or_ge snapshot.1.length (0 + 8) with hshort | h₀
  · rw [readLen_of_lt hshort]
    rfl
  rw [readLen_of_le true h₀, ok_bind]
  dsimp only
  obtain ⟨a, ha⟩ : ∃ a, lengthAt snapshot.1 0 = a := ⟨_, rfl⟩
  have h₁ : clientStatesAt snapshot.1 = 8 + a := by
    rw [clientStatesAt, sectionEnd, ha]
  rw [ha]
  rcases Nat.lt_or_ge snapshot.1.length (8 + a + 8) with hshort | hle₁
  · exact addWord_readLen_of_lt hshort _
  rw [addWord_eq (by omega), ok_bind, readLen_of_le true hle₁, ok_bind, addWord_eq (by omega), ok_bind]
  obtain ⟨b, hb⟩ : ∃ b, lengthAt snapshot.1 (8 + a) = b := ⟨_, rfl⟩
  have h₂ : topicsCountAt snapshot.1 = 8 + a + 8 + b := by
    rw [topicsCountAt, sectionEnd, h₁, hb]
  rw [hb]
  rcases Nat.lt_or_ge snapshot.1.length (8 + 8 + a + b + 8) with hshort | hle₂
  · exact addWord_readLen_of_lt hshort _
  rw [addWord_eq (by omega), ok_bind, readLen_of_le true hle₂, ok_bind, addWord_eq (by omega), ok_bind,
    addWord_eq (by omega), ok_bind]
  obtain ⟨c, hc⟩ : ∃ c, lengthAt snapshot.1 (8 + 8 + a + b) = c := ⟨_, rfl⟩
  have h₃ : relationsCountAt snapshot.1 = topicsCountAt snapshot.1 + 8 + c := by
    rw [relationsCountAt, sectionEnd, ← hc, h₂]
    congr 3
    omega
  rw [hc]
  exact addWord_readLen_of_lt (by omega) _

/-- The first three sections can be decoded. -/
def Readable (fmt : SectionFormats) (snapshot : Bytes) : Prop :=
  (readSection fmt.relations snapshot 0).isSome = true ∧
    (readSection fmt.clientStates snapshot (clientStatesAt snapshot)).isSome = true ∧
    (readSection fmt.counter snapshot (topicsCountAt snapshot)).isSome = true

/-- If the first three sections cannot be decoded, then the last one is not looked at. -/
theorem decode_cases (h : relationsCountAt snapshot.1 + 8 ≤ snapshot.1.length) :
    (Readable fmt snapshot.1 ∧ ∃ f : Counter → Sections, ∀ overflowChecks,
      Sections.decode fmt overflowChecks snapshot.1 =
        (decodeWithLengthPrefix fmt.counter overflowChecks snapshot.1
          (relationsCountAt snapshot.1 + 8) (lengthAt snapshot.1 (relationsCountAt snapshot.1))).map f) ∨
    (¬ Readable fmt snapshot.1 ∧ ∀ overflowChecks,
      Sections.decode fmt overflowChecks snapshot.1 = .error (.err .format)) := by
  simp only [decode_of_lengths _ h]
  unfold Readable
  cases readSection fmt.relations snapshot.1 0 with
  | none =>
    refine .inr ⟨fun hall => (nomatch hall.1), fun _ => ?_⟩
    cases readSection fmt.clientStates snapshot.1 (clientStatesAt snapshot.1) <;> rfl
  | some relations =>
    cases readSection fmt.clientStates snapshot.1 (clientStatesAt snapshot.1) with
    | none => exact .inr ⟨fun hall => (nomatch hall.2.1), fun _ => rfl⟩
    | some clientStates =>
      cases readSection fmt.counter snapshot.1 (topicsCountAt snapshot.1) with
      | none => exact .inr ⟨fun hall => (nomatch hall.2.2), fun _ => rfl⟩
      | some topicsCount =>
        refine .inl ⟨⟨rfl, rfl, rfl⟩,
          fun relationsCount => { relations, clientStates, topicsCount, relationsCount }, fun checks => ?_⟩
        have hjoin : join (decoded (some relations)) (decoded (some clientStates)) =
            .ok (relations, clientStates) := rfl
        have hcount : decoded (some topicsCount) = .ok topicsCount := rfl
        rw [hjoin, ok_bind, hcount, ok_bind]
        cases decodeWithLengthPrefix fmt.counter checks snapshot.1 (relationsCountAt snapshot.1 + 8)
          (lengthAt snapshot.1 (relationsCountAt snapshot.1)) <;> rfl

/-- The bytes are not damaged where `restore` relies on them. -/
structure InRange (fmt : SectionFormats) (snapshot : Bytes) : Prop where
  /-- The length fields are in the bytes. -/
  lengths : relationsCountAt snapshot + 8 ≤ snapshot.length
  /-- So is the last section, if it is looked at. -/
  last : Readable fmt snapshot → sectionEnd snapshot (relationsCountAt snapshot) ≤ snapshot.length

theorem decode_of_inRange (h : InRange fmt snapshot.1) (overflowChecks : Bool) :
    Sections.decode fmt overflowChecks snapshot.1 ≠ .error .panic ∧
      Sections.decode fmt overflowChecks snapshot.1 = Sections.decode fmt true snapshot.1 := by
  rcases decode_cases h.lengths with ⟨hreadable, f, hdecode⟩ | ⟨-, hdecode⟩
  · have hle := h.last hreadable
    simp only [hdecode, decodeWithLengthPrefix_of_le fmt.counter _ hle]
    refine ⟨?_, trivial⟩
    cases fmt.counter.read ((snapshot.1.drop (relationsCountAt snapshot.1 + 8)).take
      (lengthAt snapshot.1 (relationsCountAt snapshot.1))) <;> exact nofun
  · simp only [hdecode]
    exact ⟨nofun, trivial⟩

theorem inRange_of_decode (h : Sections.decode fmt true snapshot.1 ≠ .error .panic) :
    InRange fmt snapshot.1 := by
  have hlengths : relationsCountAt snapshot.1 + 8 ≤ snapshot.1.length := by
    by_contra hlt
    exact h (decode_of_lengths_lt (Nat.lt_of_not_le hlt))
  refine ⟨hlengths, fun hreadable => ?_⟩
  rcases decode_cases hlengths with ⟨-, f, hdecode⟩ | ⟨hnot, -⟩
  · by_contra hlt
    refine h ((hdecode true).trans ?_)
    rw [decodeWithLengthPrefix_of_lt fmt.counter (Nat.lt_of_not_le hlt)]
    rfl
  · exact absurd hreadable hnot

end Decode

/-! ## Filling the router -/

section Load

variable {fmt} {snapshot : Slice} {d : Sections}

theorem restoreRelations_error {inner : DefaultRouter}
    {l : List (Σ _ : TopicFilter, Map ClientId (Id × SubscriptionOptions))}
    (h : ¬ ∀ e ∈ l, ∃ ks, DefaultRouter.IsFilter e.1 ks) :
    ∃ e inner', restoreRelations inner l = (.error e, inner') ∧
      inner'.topicsCount = inner.topicsCount := by
  induction l generalizing inner with
  | nil => exact absurd nofun h
  | cons x l ih =>
    obtain ⟨topicFilter, relation⟩ := x
    cases htopic : Topic.fromStr topicFilter with
    | error e => exact ⟨e, inner, by rw [restoreRelations, htopic], rfl⟩
    | ok t =>
      have hrest : ¬ ∀ e ∈ l, ∃ ks, DefaultRouter.IsFilter e.1 ks := fun hall =>
        h (List.forall_mem_cons.2 ⟨⟨t.levels, t, htopic, rfl⟩, hall⟩)
      obtain ⟨e, inner', heq, hcount⟩ := @ih { inner with
        relations := inner.relations.insert topicFilter relation
        topics := (inner.topics.insert t ()).1 } hrest
      exact ⟨e, inner', by rw [restoreRelations, htopic]; exact heq, hcount⟩

theorem load_of_filters (self : ClusterRouter)
    (h : ∀ e ∈ d.relations, ∃ ks, DefaultRouter.IsFilter e.1 ks) : (self.load d).1 = .ok () := by
  obtain ⟨topics, hrun, -⟩ := @restoreRelations_ok
    { self.inner with topicsCount := d.topicsCount, relations := ∅ } d.relations h
  rw [load]
  simp only [hrun]

theorem load_error (self : ClusterRouter)
    (h : ¬ ∀ e ∈ d.relations, ∃ ks, DefaultRouter.IsFilter e.1 ks) :
    (∃ e, (self.load d).1 = .error e) ∧ (self.load d).2.inner.topicsCount = d.topicsCount := by
  obtain ⟨e, inner, hrun, hcount⟩ := @restoreRelations_error
    { self.inner with topicsCount := d.topicsCount, relations := ∅ } d.relations h
  rw [load]
  simp only [hrun]
  exact ⟨⟨_, rfl⟩, hcount⟩

end Load

/-- The bytes can be read as far as `restore` reads them, and if all of them can be decoded, then the
filters are valid. -/
structure Intact (snapshot : Bytes) : Prop where
  inRange : InRange fmt snapshot
  filters : ∀ d, Sections.decode fmt true snapshot = .ok d →
    ∀ e ∈ d.relations, ∃ ks, DefaultRouter.IsFilter e.1 ks

/-- Restoring from a byte string is safe, whatever the router holds, exactly if the bytes are intact. -/
theorem safe_iff (snapshot : Slice) : (∀ self, Safe fmt self snapshot) ↔ Intact fmt snapshot.1 := by
  constructor
  · intro h
    have hrange : InRange fmt snapshot.1 := inRange_of_decode fun hpanic => by
      refine (h {}).inBounds ?_
      rw [restore, hpanic]
    refine ⟨hrange, fun d hd => ?_⟩
    by_contra hfilters
    -- a router with another counter is changed
    let self : ClusterRouter := { inner := { topicsCount := ⟨d.topicsCount.count + 1, 0⟩ } }
    have hrestore : restore fmt true self snapshot.1 = self.load d := by
      rw [restore, hd]
    obtain ⟨⟨e, he⟩, hcount⟩ := load_error self hfilters
    have hsame := ((h self).unchanged true e (by rw [hrestore]; exact he)).topicsCount
    rw [hrestore, hcount] at hsame
    have hcounts : d.topicsCount.count = d.topicsCount.count + 1 := congrArg Counter.count hsame
    omega
  · intro h self
    have hok (overflowChecks : Bool) (e : Fault RestoreError)
        (he : (restore fmt overflowChecks self snapshot.1).1 = .error e) :
        e ≠ .panic ∧ (restore fmt overflowChecks self snapshot.1).2 = self := by
      obtain ⟨hpanic, hsame⟩ := decode_of_inRange h.inRange overflowChecks
      rw [restore] at he ⊢
      cases hdecode : Sections.decode fmt overflowChecks snapshot.1 with
      | error e' =>
        rw [hdecode] at he
        obtain rfl := Except.error.inj he
        exact ⟨fun heq => hpanic (hdecode.trans (congrArg Except.error heq)), rfl⟩
      | ok d =>
        rw [hdecode] at he
        have hfilters := h.filters d (hsame.symm.trans hdecode)
        cases (load_of_filters self hfilters).symm.trans he
    refine ⟨fun hpanic => (hok true .panic hpanic).1 rfl, fun checks e he => ?_⟩
    rw [(hok checks e he).2]
    exact ⟨rfl, fun _ => rfl, rfl, rfl, rfl⟩

/-- Nothing at all makes `restore` panic; and a filter that is not valid makes it return an error and
lose the subscriptions. -/
theorem damaged_restores :
    let d : Sections :=
      { relations := [⟨"#/a", ∅⟩], clientStates := [], topicsCount := {}, relationsCount := {} }
    let fmt : SectionFormats := ⟨.single d.relations, .single [], .single {}⟩
    let r := (run 1000 {} [(.add "a" (Id.ofClient 1 "x" 0) default, ⟨0, 0⟩)]).2
    (restore fmt true r []).1 = .error .panic ∧
      (restore fmt true r (d.encode fmt)).1 =
        .error (.err (.topic (.invalidTopic "invalid topic `#/a`"))) ∧
      "a" ∈ r.inner.relations ∧ "a" ∉ (restore fmt true r (d.encode fmt)).2.inner.relations ∧
      ¬ Safe fmt r ⟨[], by decide⟩ ∧ ¬ Safe fmt r ⟨d.encode fmt, by decide +kernel⟩ := by
  intro d fmt r
  have hpanic : (restore fmt true r []).1 = .error .panic := by decide +kernel
  have herror : (restore fmt true r (d.encode fmt)).1 =
      .error (.err (.topic (.invalidTopic "invalid topic `#/a`"))) := by
    decide +kernel
  have hbefore : "a" ∈ r.inner.relations := by decide +kernel
  have hafter : "a" ∉ (restore fmt true r (d.encode fmt)).2.inner.relations := by decide +kernel
  refine ⟨hpanic, herror, hbefore, hafter, fun h => h.inBounds hpanic, fun h => hafter ?_⟩
  rw [(h.unchanged true _ herror).relations]
  exact hbefore

end ClusterRouter

end FerroMq
