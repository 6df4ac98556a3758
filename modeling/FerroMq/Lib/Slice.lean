import FerroMq.Lib.Wire

/-!
# Slices and machine words

Indexing into a buffer: sums of positions are words of 64 bits, which overflow with a panic or silently, and a
slice that does not lie in the buffer is a panic.
-/

namespace FerroMq.Lib

open List

variable {ε : Type}

/-! ## Little-endian numbers -/

def toLeBytes : ℕ → ℕ → Bytes
  | 0, _ => []
  | w + 1, n => UInt8.ofNat n :: toLeBytes w (n / 256)

def fromLeBytes : Bytes → ℕ
  | [] => 0
  | b :: bs => b.toNat + 256 * fromLeBytes bs

theorem length_toLeBytes (w n : ℕ) : (toLeBytes w n).length = w := by
  induction w generalizing n with
  | zero => rfl
  | succ w ih => rw [toLeBytes, length_cons, ih]

theorem fromLeBytes_toLeBytes {w n : ℕ} (h : n < 256 ^ w) : fromLeBytes (toLeBytes w n) = n := by
  induction w generalizing n with
  | zero =>
    rw [pow_zero] at h
    rw [toLeBytes, fromLeBytes]
    omega
  | succ w ih =>
    rw [pow_succ] at h
    rw [toLeBytes, fromLeBytes, ih (by omega), UInt8.toNat_ofNat']
    omega

/-! ## Words and slices -/

def addWord (overflowChecks : Bool) (a b : ℕ) : Except (Fault ε) ℕ :=
  if a + b < 2 ^ 64 then .ok (a + b)
  else if overflowChecks then .error .panic
  else .ok ((a + b) % 2 ^ 64)

theorem addWord_eq {a b : ℕ} (h : a + b < 2 ^ 64) (overflowChecks : Bool) :
    (addWord overflowChecks a b : Except (Fault ε) ℕ) = .ok (a + b) :=
  if_pos h

def slice (bs : Bytes) (start stop : ℕ) : Except (Fault ε) Bytes :=
  if start ≤ stop ∧ stop ≤ bs.length then .ok ((bs.drop start).take (stop - start))
  else .error .panic

theorem slice_append (pre mid post : Bytes) :
    (slice (pre ++ mid ++ post) pre.length (pre.length + mid.length) : Except (Fault ε) Bytes) =
      .ok mid := by
  rw [slice, if_pos, Nat.add_sub_cancel_left, append_assoc, drop_left, take_left]
  simp only [length_append]
  omega

theorem slice_add (pre bs : Bytes) (start stop : ℕ) :
    (slice (pre ++ bs) (pre.length + start) (pre.length + stop) : Except (Fault ε) Bytes) =
      slice bs start stop := by
  have hiff : pre.length + start ≤ pre.length + stop ∧ pre.length + stop ≤ (pre ++ bs).length ↔
      start ≤ stop ∧ stop ≤ bs.length := by
    rw [length_append]
    omega
  rw [slice, slice, if_congr hiff _ rfl]
  rw [Nat.add_sub_add_left, drop_append, drop_of_length_le (by omega), nil_append,
    Nat.add_sub_cancel_left]

def index (bs : Bytes) (i : ℕ) : Except (Fault ε) UInt8 :=
  match bs[i]? with
  | some b => .ok b
  | none => .error .panic

theorem index_add (pre bs : Bytes) (i : ℕ) :
    (index (pre ++ bs) (pre.length + i) : Except (Fault ε) UInt8) = index bs i := by
  rw [index, index, getElem?_append_right (by omega), Nat.add_sub_cancel_left]

/-! ## Formats -/

/-- A way to write values and to read them back. -/
structure Format (α : Type) where
  write : α → Bytes
  read : Bytes → Option α

/-- The value is read as it was written. -/
def Format.Lossless {α : Type} (fmt : Format α) (a : α) : Prop := fmt.read (fmt.write a) = some a

def Format.single {α : Type} (a : α) : Format α := { write := fun _ => [], read := fun _ => some a }

end FerroMq.Lib
