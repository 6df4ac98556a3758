import FerroMq.Lib.Map
import FerroMq.Lib.Slice

/-!
# Batches of the sled engine

Key-value pairs in `storage_sled.rs`, with the feature `ttl`: expiry times are kept in one tree by key and in
one by time.  `_insert` drops the expiry record of its key, `_batch_insert` only those of keys that exist and
have expired before it writes anything.  `batchInsert_tfae` says when the two come to the same.  Errors of the
engine are left out.
-/

namespace FerroMq.Storage

open Lib List

abbrev Key := Bytes

abbrev Time := Int64

inductive KeyType
  | kv
  | map
  | list
  deriving DecidableEq, Repr

def expireKey (e : Key × Time) : Key := (toLeBytes 8 e.2.toBitVec.toNat).reverse ++ e.1

structure Sled where
  kvTree : Lib.Map Key Bytes := ∅
  expireKeyTree : Lib.Map Key KeyType := ∅
  keyExpireTree : Lib.Map Key Time := ∅

namespace Sled

section

variable (s : Sled) (now : Time)

def kvContainsKey (key : Key) : Bool := (s.kvTree.lookup key).isSome

def ttlAt (key : Key) : Option (Time × Option Time) :=
  match s.keyExpireTree.lookup key with
  | some time => if s.kvContainsKey key then some (time, some time) else none
  | none => if s.kvContainsKey key then some (.maxValue, none) else none

def ttl (key : Key) : Option (Time × Option Time) := (s.ttlAt key).map fun r => (r.1 - now, r.2)

def expireAt (key : Key) (time : Time) : Sled :=
  if s.kvContainsKey key then
    { s with
      keyExpireTree := s.keyExpireTree.insert key time
      expireKeyTree := s.expireKeyTree.insert (expireKey (key, time)) .kv }
  else s

def insert (key : Key) (val : Bytes) : Sled :=
  match s.keyExpireTree.lookup key with
  | some time =>
    { kvTree := s.kvTree.insert key val
      expireKeyTree := s.expireKeyTree.erase (expireKey (key, time))
      keyExpireTree := s.keyExpireTree.erase key }
  | none => { s with kvTree := s.kvTree.insert key val }

def runOut (keyVals : List (Key × Bytes)) : List (Key × Time) :=
  keyVals.filterMap fun (k, _) => match s.ttl now k with
    | some (left, some time) => if left ≤ 0 then some (k, time) else none
    | _ => none

def batchInsert (keyVals : List (Key × Bytes)) : Sled :=
  { keyExpireTree := Map.eraseAll s.keyExpireTree ((s.runOut now keyVals).map Prod.fst)
    expireKeyTree := Map.eraseAll s.expireKeyTree ((s.runOut now keyVals).map expireKey)
    kvTree := Map.putAll s.kvTree keyVals }

def insertEach (keyVals : List (Key × Bytes)) : Sled := keyVals.foldl (fun s e => s.insert e.1 e.2) s

def recorded (keys : List Key) : List (Key × Time) :=
  keys.filterMap fun k => (s.keyExpireTree.lookup k).map fun time => (k, time)

/-- All keys of a batch that have an expiry record have a value, and have expired. -/
def RunsOut (keyVals : List (Key × Bytes)) : Prop :=
  ∀ e ∈ keyVals, ∀ time ∈ s.keyExpireTree.lookup e.1, s.kvContainsKey e.1 = true ∧ time - now ≤ 0

instance (keyVals : List (Key × Bytes)) : Decidable (s.RunsOut now keyVals) := by
  unfold RunsOut
  infer_instance

end

section

variable {s : Sled} {now : Time} {keyVals : List (Key × Bytes)} {k : Key} {time : Time}

theorem mem_recorded_iff {keys : List Key} :
    (k, time) ∈ s.recorded keys ↔ k ∈ keys ∧ s.keyExpireTree.lookup k = some time := by
  simp only [recorded, mem_filterMap, Option.map_eq_some_iff, Prod.mk.injEq]
  constructor
  · rintro ⟨key, hkey, time', htime, rfl, rfl⟩
    exact ⟨hkey, htime⟩
  · rintro ⟨hkey, htime⟩
    exact ⟨k, hkey, time, htime, rfl, rfl⟩

theorem mem_runOut_iff : (k, time) ∈ s.runOut now keyVals ↔
    (k, time) ∈ s.recorded (keyVals.map Prod.fst) ∧ s.kvContainsKey k = true ∧ time - now ≤ 0 := by
  have hone : ∀ k', (match s.ttl now k' with
      | some (left, some time) => if left ≤ 0 then some (k', time) else none
      | _ => none) = some (k, time) ↔
        k' = k ∧ s.keyExpireTree.lookup k = some time ∧ s.kvContainsKey k = true ∧ time - now ≤ 0 := by
    intro k'
    unfold ttl ttlAt
    cases hkv : s.kvContainsKey k' <;> cases hkey : s.keyExpireTree.lookup k' <;> grind
  simp only [mem_recorded_iff, runOut, mem_filterMap, mem_map]
  grind

theorem insert_eq (s : Sled) (key : Key) (val : Bytes) : s.insert key val =
    { kvTree := s.kvTree.insert key val
      keyExpireTree := s.keyExpireTree.erase key
      expireKeyTree := Map.eraseAll s.expireKeyTree ((s.recorded [key]).map expireKey) } := by
  rw [insert]
  cases hrecord : s.keyExpireTree.lookup key with
  | none =>
    have herase : s.keyExpireTree.erase key = s.keyExpireTree := Finmap.ext_lookup fun k => by
      rw [Map.lookup_erase']
      split_ifs with heq
      · rw [heq, hrecord]
      · rfl
    rw [herase]
    simp [recorded, hrecord, Map.eraseAll]
  | some time => simp [recorded, hrecord, Map.eraseAll]

theorem mem_recorded_cons_iff (key : Key) (val : Bytes) (keys : List Key) : (k, time) ∈ s.recorded (key :: keys) ↔
    (k, time) ∈ s.recorded [key] ∨ (k, time) ∈ (s.insert key val).recorded keys := by
  simp only [mem_recorded_iff, insert_eq, Map.lookup_erase_eq_some_iff, mem_cons, not_mem_nil, or_false]
  tauto

theorem insertEach_eq (s : Sled) (keyVals : List (Key × Bytes)) : s.insertEach keyVals =
    { kvTree := Map.putAll s.kvTree keyVals
      keyExpireTree := Map.eraseAll s.keyExpireTree (keyVals.map Prod.fst)
      expireKeyTree := Map.eraseAll s.expireKeyTree ((s.recorded (keyVals.map Prod.fst)).map expireKey) } := by
  induction keyVals generalizing s with
  | nil => rfl
  | cons e keyVals ih =>
    have hentries : Map.eraseAll (s.insert e.1 e.2).expireKeyTree
        (((s.insert e.1 e.2).recorded (keyVals.map Prod.fst)).map expireKey) =
        Map.eraseAll s.expireKeyTree ((s.recorded ((e :: keyVals).map Prod.fst)).map expireKey) := by
      rw [insert_eq]
      dsimp only
      rw [← Map.eraseAll_append, ← insert_eq, ← map_append]
      refine Map.eraseAll_congr _ fun k => ?_
      simp only [mem_map, mem_append, Prod.exists]
      exact exists₂_congr fun _ _ => and_congr_left' (mem_recorded_cons_iff e.1 e.2 _).symm
    have hstep : s.insertEach (e :: keyVals) = (s.insert e.1 e.2).insertEach keyVals := rfl
    rw [hstep, ih, hentries, insert_eq]
    rfl

/-- If all records of the keys have run out, they are those that the batch drops. -/
theorem RunsOut.mem_iff (h : s.RunsOut now keyVals) (e : Key × Time) :
    e ∈ s.runOut now keyVals ↔ e ∈ s.recorded (keyVals.map Prod.fst) := by
  obtain ⟨k, time⟩ := e
  rw [mem_runOut_iff, and_iff_left_iff_imp, mem_recorded_iff]
  rintro ⟨hmem, htime⟩
  obtain ⟨e, he, rfl⟩ := mem_map.1 hmem
  exact h e he time htime

theorem eraseAll_recorded (s : Sled) (keys : List Key) :
    Map.eraseAll s.keyExpireTree ((s.recorded keys).map Prod.fst) = Map.eraseAll s.keyExpireTree keys :=
  Finmap.ext_lookup fun k => Option.ext fun time => by
    simp only [Map.lookup_eraseAll_eq_some_iff, mem_map, Prod.exists, mem_recorded_iff, exists_and_right,
      exists_eq_right]
    refine and_congr_left fun htime => not_congr ⟨?_, fun hk => ⟨time, hk, htime⟩⟩
    rintro ⟨_, hk, -⟩
    exact hk

theorem batchInsert_eq_of_runsOut (h : s.RunsOut now keyVals) :
    s.batchInsert now keyVals = s.insertEach keyVals := by
  have hmap : ∀ {β : Type} (f : Key × Time → β) (b : β), b ∈ (s.runOut now keyVals).map f ↔
      b ∈ (s.recorded (keyVals.map Prod.fst)).map f := fun f b => by simp only [mem_map, h.mem_iff]
  rw [batchInsert, insertEach_eq, Map.eraseAll_congr _ (hmap Prod.fst), Map.eraseAll_congr _ (hmap expireKey),
    eraseAll_recorded]

end

/-- A batch and the insertion one by one leave the same state exactly if they leave the same values, expiry records
and remaining lifetimes of the keys, and exactly if all keys that have an expiry record have values and have
expired. -/
theorem batchInsert_tfae (s : Sled) (now : Time) (keyVals : List (Key × Bytes)) : List.TFAE [
    s.batchInsert now keyVals = s.insertEach keyVals,
    ∀ k, (s.batchInsert now keyVals).kvTree.lookup k = (s.insertEach keyVals).kvTree.lookup k ∧
      (s.batchInsert now keyVals).keyExpireTree.lookup k = (s.insertEach keyVals).keyExpireTree.lookup k ∧
      (s.batchInsert now keyVals).ttl now k = (s.insertEach keyVals).ttl now k,
    s.RunsOut now keyVals] := by
  tfae_have 1 → 2 := fun h k => by rw [h]; exact ⟨rfl, rfl, rfl⟩
  tfae_have 2 → 3 := by
    intro h e he time htime
    have hkey : e.1 ∈ keyVals.map Prod.fst := List.mem_map.2 ⟨e, he, rfl⟩
    have hrecord : s.keyExpireTree.lookup e.1 = some time := htime
    have hgone := (h e.1).2.1
    rw [insertEach_eq] at hgone
    dsimp only at hgone
    rw [Map.lookup_eraseAll_of_mem hkey] at hgone
    have hmem : e.1 ∈ (s.runOut now keyVals).map Prod.fst := by
      by_contra hnot
      exact nomatch hrecord.symm.trans ((Map.lookup_eraseAll_of_notMem hnot).symm.trans hgone)
    obtain ⟨⟨k, time'⟩, hrun, hk⟩ := List.mem_map.1 hmem
    obtain rfl : k = e.1 := hk
    obtain ⟨hrec, hexpired⟩ := mem_runOut_iff.1 hrun
    obtain rfl := Option.some.inj (hrecord.symm.trans (mem_recorded_iff.1 hrec).2)
    exact hexpired
  tfae_have 3 → 1 := batchInsert_eq_of_runsOut
  tfae_finish

/-- A key keeps its expiry time in a batch, and loses it one by one. -/
theorem batchInsert_ne_insertEach :
    let s : Sled := (({} : Sled).insert [107] [1]).expireAt [107] 9
    s.batchInsert 5 [([107], [2])] ≠ s.insertEach [([107], [2])] ∧
      (s.batchInsert 5 [([107], [2])]).ttl 5 [107] = some (4, some 9) ∧
      (s.insertEach [([107], [2])]).ttl 5 [107] = some (.maxValue - 5, none) := by
  refine ⟨fun h => ?_, by decide +kernel, by decide +kernel⟩
  have hlookup := congrArg (fun s => s.keyExpireTree.lookup [107]) h
  exact absurd hlookup (by decide +kernel)

end Sled

end FerroMq.Storage
