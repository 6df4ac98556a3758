import Mathlib

/-!
# Counters that wrap around

`ahead c v` is the number of steps after which a counter that stands at `c` reaches `v`.
-/

namespace FerroMq.Lib

variable {w : ℕ} {c v v' : BitVec w}

def ahead (c v : BitVec w) : ℕ := (v - c).toNat

theorem ahead_lt (c v : BitVec w) : ahead c v < 2 ^ w := (v - c).isLt

theorem ahead_self (c : BitVec w) : ahead c c = 0 := by
  unfold ahead
  rw [BitVec.sub_self, BitVec.toNat_zero]

theorem ahead_inj : ahead c v = ahead c v' ↔ v = v' := by
  unfold ahead
  rw [BitVec.toNat_inj, BitVec.sub_left_inj]

theorem ahead_eq_zero_iff : ahead c v = 0 ↔ v = c := by
  rw [← ahead_self c, ahead_inj]

theorem ahead_add_ahead (h : ahead c v ≤ ahead c v') : ahead c v + ahead v v' = ahead c v' := by
  have hsub : ahead v v' = ahead c v' - ahead c v := by
    unfold ahead at h ⊢
    rw [← BitVec.toNat_sub_of_le h, sub_sub_sub_cancel_right]
  rw [hsub]
  exact Nat.add_sub_cancel' h

theorem ahead_eq_add (h : ahead c v + ahead v v' < 2 ^ w) : ahead c v' = ahead c v + ahead v v' := by
  unfold ahead at h ⊢
  rw [← Nat.mod_eq_of_lt h, ← BitVec.toNat_add, sub_add_sub_cancel']

/-- The value that is reached last is the one behind the counter. -/
theorem ahead_eq_iff_add_one : ahead c v = 2 ^ w - 1 ↔ v + 1 = c := by
  have hlast : ahead c (c - 1) = 2 ^ w - 1 := by
    unfold ahead
    rw [sub_sub_cancel_left]
    change (-1#w).toNat = 2 ^ w - 1
    rw [BitVec.neg_one_eq_allOnes, BitVec.toNat_allOnes]
  rw [← hlast, ahead_inj, eq_sub_iff_add_eq]

theorem ahead_add_one (h : ahead c v < 2 ^ w - 1) : ahead c (v + 1) = ahead c v + 1 := by
  have hone : (1 : BitVec w).toNat = 1 := by
    change (1#w).toNat = 1
    rw [BitVec.toNat_ofNat, Nat.mod_eq_of_lt (by omega)]
  unfold ahead at h ⊢
  rw [add_sub_right_comm, BitVec.toNat_add, hone, Nat.mod_eq_of_lt (by omega)]

theorem ahead_succ (h : v ≠ c) : ahead (c + 1) v + 1 = ahead c v := by
  have hpos : ahead c v ≠ 0 := mt ahead_eq_zero_iff.1 h
  have hlt := ahead_lt c v
  have hself := ahead_self c
  have hone : ahead c (c + 1) = ahead c c + 1 := ahead_add_one (by omega)
  have hadd : ahead c (c + 1) + ahead (c + 1) v = ahead c v := ahead_add_ahead (by omega)
  omega

end FerroMq.Lib
