import FerroMq.Codec.Types

/-!
# Variable-length integers

Lengths and subscription identifiers are written in up to four bytes of seven bits each (`varLen`).
`writeVariableLength` writes this format, `decodeVariableLengthCursor` reads it back, and `varIntLen` and
`varIntLenFromSize` compute with its length (`varInt_exact`).
-/

namespace FerroMq.Codec

open Lib Nat

def writeVariableLength (len : ℕ) : Enc EncodeError Unit :=
  if len ≤ 127 then Enc.putU8 (UInt8.ofNat len)
  else if len ≤ 16383 then
    Enc.putSlice [UInt8.ofNat (len &&& 0b01111111 ||| 0b10000000), UInt8.ofNat (len >>> 7)]
  else if len ≤ 2097151 then
    Enc.putSlice [UInt8.ofNat (len &&& 0b01111111 ||| 0b10000000),
      UInt8.ofNat (len >>> 7 &&& 0b01111111 ||| 0b10000000), UInt8.ofNat (len >>> 14)]
  else if len ≤ 268435455 then
    Enc.putSlice [UInt8.ofNat (len &&& 0b01111111 ||| 0b10000000),
      UInt8.ofNat (len >>> 7 &&& 0b01111111 ||| 0b10000000),
      UInt8.ofNat (len >>> 14 &&& 0b01111111 ||| 0b10000000), UInt8.ofNat (len >>> 21)]
  else Enc.panic

/-- The loop of `decode_variable_length_cursor`.  The shift is checked before it grows, so the
fourth turn is the last one. -/
def decodeVariableLengthLoop : ℕ → ℕ → ℕ → Dec DecodeError ℕ
  | 0, _, _ => Dec.panic
  | turns + 1, shift, len => do
    let more ← Dec.hasRemaining
    Dec.ensure (more = true) .malformedPacket
    let val ← Dec.getU8
    let len := len + (val.toNat &&& 0b01111111) <<< shift
    if val &&& 0b10000000 = 0 then pure len
    else do
      Dec.ensure (shift < 21) .invalidLength
      decodeVariableLengthLoop turns (shift + 7) len

def decodeVariableLengthCursor : Dec DecodeError ℕ := decodeVariableLengthLoop 4 0 0

/-- The value and the number of bytes it took, or `none` if bytes are missing. -/
def decodeVariableLength (src : Bytes) : Except (Fault DecodeError) (Option (ℕ × ℕ)) :=
  match decodeVariableLengthCursor src with
  | .ok (len, rest) => .ok (some (len, src.length - rest.length))
  | .error (.err .malformedPacket) => .ok none
  | .error e => .error e

/-! ## The format -/

def contByte (n : ℕ) : UInt8 := UInt8.ofNat (n % 128 + 128)

def varLen (n : ℕ) : Bytes :=
  if n < 128 then [UInt8.ofNat n]
  else if n < 128 ^ 2 then [contByte n, UInt8.ofNat (n / 128)]
  else if n < 128 ^ 3 then [contByte n, contByte (n / 128), UInt8.ofNat (n / 128 ^ 2)]
  else [contByte n, contByte (n / 128), contByte (n / 128 ^ 2), UInt8.ofNat (n / 128 ^ 3)]

theorem varLen_ne_nil (n : ℕ) : varLen n ≠ [] := by
  unfold varLen
  split_ifs <;> simp

theorem and_or_eq (n : ℕ) : n &&& 0b01111111 ||| 0b10000000 = n % 128 + 128 := by
  have hlow : n &&& 0b01111111 = n % 128 := and_two_pow_sub_one_eq_mod n 7
  have hlt : n % 128 < 2 ^ 7 := mod_lt _ (by norm_num)
  have hor : 128 + n % 128 = 128 ||| n % 128 := by
    simpa using two_pow_add_eq_or_of_lt hlt 1
  rw [hlow, Nat.or_comm, ← hor, Nat.add_comm]

theorem spec_writeVariableLength (n : ℕ) :
    Enc.Spec (writeVariableLength n) (n ≤ maxPacketSize) False (varLen n) := by
  have hput (bs : Bytes) (h : n ≤ maxPacketSize) :
      Enc.Spec (Enc.putSlice bs : Enc EncodeError Unit) (n ≤ maxPacketSize) False bs :=
    Enc.Spec.congr (Enc.Strict.putSlice bs) (iff_of_true trivial h) (fun hf => absurd trivial hf)
      fun _ => rfl
  simp only [writeVariableLength, varLen, and_or_eq, maxPacketSize, contByte,
    shiftRight_eq_div_pow] at hput ⊢
  split_ifs <;> try omega
  iterate 4 exact hput _ (by omega)
  exact Enc.Spec.panic.congr (by simp; omega) (fun _ => Iff.rfl) fun h => h.elim

variable {n : ℕ}

theorem strict_writeVariableLength (h : n ≤ maxPacketSize) :
    Enc.Strict (writeVariableLength n) True (varLen n) :=
  (spec_writeVariableLength n).congr (iff_of_true h trivial) (fun hn => absurd h hn) fun _ => rfl

/-! ## Reading -/

theorem toNat_and_127 (b : UInt8) : b.toNat &&& 0b01111111 = b.toNat % 128 :=
  and_two_pow_sub_one_eq_mod b.toNat 7

theorem and_128_eq_zero_iff (b : UInt8) : b &&& 0b10000000 = 0 ↔ b.toNat < 128 := by
  have hbit : b.toNat &&& 2 ^ 7 = (b.toNat.testBit 7).toNat * 2 ^ 7 := and_two_pow ..
  have hlt : b.toNat < 256 := b.toNat_lt
  rw [← UInt8.toNat_inj, UInt8.toNat_and]
  change b.toNat &&& 2 ^ 7 = 0 ↔ _
  rw [hbit, testBit_eq_decide_div_mod_eq]
  by_cases h : b.toNat / 2 ^ 7 % 2 = 1
  · simp only [h, decide_true, Bool.toNat_true]
    omega
  · simp only [h, decide_false, Bool.toNat_false]
    omega

theorem toNat_contByte (n : ℕ) : (contByte n).toNat = n % 128 + 128 := by
  rw [contByte, UInt8.toNat_ofNat']
  omega

theorem decodeVariableLengthLoop_cons (turns shift len : ℕ) (b : UInt8) (rest : Bytes) :
    decodeVariableLengthLoop (turns + 1) shift len (b :: rest) =
      if b &&& 0b10000000 = 0 then .ok (len + (b.toNat &&& 0b01111111) <<< shift, rest)
      else if shift < 21 then
        decodeVariableLengthLoop turns (shift + 7) (len + (b.toNat &&& 0b01111111) <<< shift) rest
      else .error (.err .invalidLength) := by
  simp only [decodeVariableLengthLoop, Dec.bind_apply, Dec.hasRemaining, Dec.ensure, Dec.getU8,
    List.isEmpty_cons, Bool.not_false, if_true, Dec.pure_apply]
  by_cases hb : b &&& 0b10000000 = 0
  · rw [if_pos hb, if_pos hb, Dec.pure_apply]
  · by_cases hs : shift < 21 <;> simp only [hb, hs, if_true, if_false, Dec.bind_apply, Dec.pure_apply, Dec.fail]

theorem reads_loop_last {b : UInt8} (hb : b.toNat < 128) (turns shift len : ℕ) :
    Dec.Reads (decodeVariableLengthLoop (turns + 1) shift len) [b] (len + b.toNat <<< shift) := by
  intro rest
  rw [List.singleton_append, decodeVariableLengthLoop_cons, if_pos ((and_128_eq_zero_iff b).2 hb),
    toNat_and_127, mod_eq_of_lt hb]

theorem reads_loop_cont (n : ℕ) {turns shift len a : ℕ} {bs : Bytes} (hs : shift < 21)
    (h : Dec.Reads (decodeVariableLengthLoop turns (shift + 7) (len + (n % 128) <<< shift)) bs a) :
    Dec.Reads (decodeVariableLengthLoop (turns + 1) shift len) (contByte n :: bs) a := by
  intro rest
  have hn : (contByte n).toNat % 128 = n % 128 := by
    rw [toNat_contByte]
    omega
  have hz : ¬ contByte n &&& 0b10000000 = 0 := by
    rw [and_128_eq_zero_iff, toNat_contByte]
    omega
  rw [List.cons_append, decodeVariableLengthLoop_cons, if_neg hz, if_pos hs, toNat_and_127, hn]
  exact h rest

theorem decided_loop (turns shift len : ℕ) :
    Dec.Decided (decodeVariableLengthLoop turns shift len) .malformedPacket := by
  induction turns generalizing shift len with
  | zero => exact fun src => Or.inr fun more => rfl
  | succ turns ih =>
    rintro (_ | ⟨b, rest⟩)
    · exact Or.inl rfl
    · rw [decodeVariableLengthLoop_cons]
      split_ifs with hb hs
      · refine ⟨[b], rfl, fun rest' => ?_⟩
        rw [List.singleton_append, decodeVariableLengthLoop_cons, if_pos hb]
      · have h := ih (shift + 7) (len + (b.toNat &&& 0b01111111) <<< shift) rest
        rcases hd : decodeVariableLengthLoop turns (shift + 7)
            (len + (b.toNat &&& 0b01111111) <<< shift) rest with f | ⟨n, rest'⟩
        · rw [hd] at h
          refine h.imp_right fun h more => ?_
          rw [List.cons_append, decodeVariableLengthLoop_cons, if_neg hb, if_pos hs, h]
        · rw [hd] at h
          obtain ⟨bs, rfl, hreads⟩ := h
          refine ⟨b :: bs, rfl, fun rest'' => ?_⟩
          rw [List.cons_append, decodeVariableLengthLoop_cons, if_neg hb, if_pos hs, hreads]
      · refine Or.inr fun more => ?_
        rw [List.cons_append, decodeVariableLengthLoop_cons, if_neg hb, if_neg hs]

theorem decided_decodeVariableLengthCursor :
    Dec.Decided decodeVariableLengthCursor .malformedPacket := decided_loop 4 0 0

theorem decodeVariableLength_append {len : Bytes}
    (h : Dec.Reads decodeVariableLengthCursor len n) (rest : Bytes) :
    decodeVariableLength (len ++ rest) = .ok (some (n, len.length)) := by
  simp only [decodeVariableLength, h rest, List.length_append, Nat.add_sub_cancel]

theorem reads_decodeVariableLengthCursor (hn : n ≤ maxPacketSize) :
    Dec.Reads decodeVariableLengthCursor (varLen n) n := by
  unfold maxPacketSize at hn
  have hb : ∀ m < 128, (UInt8.ofNat m).toNat = m := fun m hm => by
    rw [UInt8.toNat_ofNat']
    omega
  have hlast : ∀ {m turns shift len : ℕ}, m < 128 →
      len + m <<< shift = n → Dec.Reads (decodeVariableLengthLoop (turns + 1) shift len)
        [UInt8.ofNat m] n := by
    intro m turns shift len hm heq
    have h := reads_loop_last (by rw [hb m hm]; exact hm) turns shift len
    rwa [hb m hm, heq] at h
  unfold varLen decodeVariableLengthCursor
  split_ifs with h₁ h₂ h₃
  · exact hlast h₁ (by simp)
  · exact reads_loop_cont n (by norm_num) (hlast (by omega) (by omega))
  · exact reads_loop_cont n (by norm_num) (reads_loop_cont _ (by norm_num) (hlast (by omega) (by omega)))
  · exact reads_loop_cont n (by norm_num) (reads_loop_cont _ (by norm_num)
      (reads_loop_cont _ (by norm_num) (hlast (by omega) (by omega))))

theorem length_varLen_le {k : ℕ} (hk : 0 < k) (hk4 : k ≤ 4) (hn : n < 128 ^ k) : (varLen n).length ≤ k := by
  unfold varLen
  split_ifs <;> interval_cases k <;> simp at * <;> omega

theorem add_shiftLeft_lt {i len : ℕ} (hlen : len < 128 ^ i) (b : UInt8) :
    len + (b.toNat &&& 0b01111111) <<< (7 * i) < 128 ^ (i + 1) := by
  have hpow : 2 ^ (7 * i) = 128 ^ i := pow_mul 2 7 i
  rw [toNat_and_127, shiftLeft_eq, hpow, pow_succ 128 i]
  have hmul : b.toNat % 128 * 128 ^ i ≤ 127 * 128 ^ i := mul_le_mul_right _ (by omega)
  omega

/-- With `turns` turns to go, the loop reads at most that many bytes, and no more than the number
needs. -/
theorem safe_decodeVariableLengthLoop (turns i : ℕ) (hi : turns + i = 4) (hturns : 0 < turns)
    {len : ℕ} (hlen : len < 128 ^ i) (src : Bytes) :
    Dec.Safe (decodeVariableLengthLoop turns (7 * i) len) src fun n rest =>
      ∃ k, i < k ∧ k ≤ 4 ∧ n < 128 ^ k ∧ rest.length + (k - i) = src.length := by
  induction turns generalizing i len src with
  | zero => omega
  | succ turns ih =>
    rw [decodeVariableLengthLoop]
    refine .bind (.hasRemaining (.bind (.ensure fun hne => ?_)))
    refine .bind (.getU8 (by simpa using hne) ?_)
    rintro b rest rfl
    have hnew := add_shiftLeft_lt hlen b
    split_ifs
    · exact .pure ⟨i + 1, by omega, by omega, hnew, by simp⟩
    · refine .bind (.ensure fun hshift => ?_)
      refine (ih (i + 1) (by omega) (by omega) hnew rest).mono ?_
      rintro n rest' ⟨k, hik, hk4, hn, hrest⟩
      exact ⟨k, by omega, hk4, hn, by rw [List.length_cons]; omega⟩

theorem safe_decodeVariableLengthCursor (src : Bytes) :
    Dec.Safe decodeVariableLengthCursor src fun n rest =>
      n ≤ maxPacketSize ∧ (varLen n).length + rest.length ≤ src.length ∧ rest.length < src.length := by
  refine (safe_decodeVariableLengthLoop 4 0 rfl (by norm_num) (by norm_num) src).mono ?_
  rintro n rest ⟨k, hk, hk4, hn, hrest⟩
  have hlen := length_varLen_le hk hk4 hn
  have hmax : n < 128 ^ 4 := hn.trans_le (Nat.pow_le_pow_right (by norm_num) hk4)
  refine ⟨?_, by omega, by omega⟩
  unfold maxPacketSize
  omega

/-! ## Reading with machine words -/

def addU32 (a b : ℕ) : Dec DecodeError ℕ :=
  if a + b < 2 ^ 32 then pure (a + b) else Dec.panic

/-- `a << n` in 32 bits: bits that are shifted out are lost, and a shift by the whole word is a
panic. -/
def shlU32 (a n : ℕ) : Dec DecodeError ℕ :=
  if n < 32 then pure (a <<< n % 2 ^ 32) else Dec.panic

/-- The loop of `decode_variable_length_cursor` in a build that checks its arithmetic. -/
def decodeVariableLengthLoopU32 : ℕ → ℕ → ℕ → Dec DecodeError ℕ
  | 0, _, _ => Dec.panic
  | turns + 1, shift, len => do
    let more ← Dec.hasRemaining
    Dec.ensure (more = true) .malformedPacket
    let val ← Dec.getU8
    let bits ← shlU32 (val.toNat &&& 0b01111111) shift
    let len ← addU32 len bits
    if val &&& 0b10000000 = 0 then pure len
    else do
      Dec.ensure (shift < 21) .invalidLength
      let shift ← addU32 shift 7
      decodeVariableLengthLoopU32 turns shift len

def decodeVariableLengthCursorU32 : Dec DecodeError ℕ := decodeVariableLengthLoopU32 4 0 0

theorem addU32_eq {a b : ℕ} (h : a + b < 2 ^ 32) : addU32 a b = pure (a + b) := if_pos h

theorem shlU32_eq {a : ℕ} (hn : n < 32) (h : a <<< n < 2 ^ 32) : shlU32 a n = pure (a <<< n) := by
  rw [shlU32, if_pos hn, mod_eq_of_lt h]

theorem decodeVariableLengthLoopU32_eq (turns i : ℕ) (hi : turns + i = 4) (hturns : 0 < turns)
    {len : ℕ} (hlen : len < 128 ^ i) :
    decodeVariableLengthLoopU32 turns (7 * i) len = decodeVariableLengthLoop turns (7 * i) len := by
  induction turns generalizing i len with
  | zero => omega
  | succ turns ih =>
    have hpow : 128 ^ (i + 1) ≤ 128 ^ 4 := Nat.pow_le_pow_right (by norm_num) (by omega)
    rw [decodeVariableLengthLoopU32, decodeVariableLengthLoop]
    refine bind_congr fun more => bind_congr fun _ => bind_congr fun val => ?_
    have hnew := add_shiftLeft_lt hlen val
    rw [shlU32_eq (by omega) (by omega), pure_bind, addU32_eq (by omega), pure_bind]
    split_ifs with hlast
    · rfl
    · by_cases hshift : 7 * i < 21
      · simp only [Dec.ensure, if_pos hshift, pure_bind]
        rw [addU32_eq (by omega), pure_bind]
        exact ih (i + 1) (by omega) (by omega) hnew
      · simp only [Dec.ensure, if_neg hshift]
        rfl

/-- Nothing overflows while a number is read. -/
theorem decodeVariableLengthCursorU32_eq :
    decodeVariableLengthCursorU32 = decodeVariableLengthCursor :=
  decodeVariableLengthLoopU32_eq 4 0 rfl (by norm_num) (by norm_num)

/-! ## Computing with lengths -/

def leadingZeros (w n : ℕ) : ℕ := w - n.size

/-- The bytes a number takes, by the number of its leading zeros in 64 bits. -/
def varIntMap : List ℕ :=
  [10, 9, 9, 9, 9, 9, 9, 9, 8, 8, 8, 8, 8, 8, 8, 7, 7, 7, 7, 7, 7, 7, 6, 6, 6, 6, 6, 6, 6, 5, 5, 5, 5,
    5, 5, 5, 4, 4, 4, 4, 4, 4, 4, 3, 3, 3, 3, 3, 3, 3, 2, 2, 2, 2, 2, 2, 2, 1, 1, 1, 1, 1, 1, 1, 1]

def varIntMapU32 : List ℕ :=
  [5, 5, 5, 5, 4, 4, 4, 4, 4, 4, 4, 3, 3, 3, 3, 3, 3, 3, 2, 2, 2, 2, 2, 2, 2, 1, 1, 1, 1, 1, 1, 1, 1]

def varIntLen (val : ℕ) : ℕ := varIntMap.getD (leadingZeros 64 val) 0

def varIntLenU32 (val : ℕ) : ℕ := varIntMapU32.getD (leadingZeros 32 val) 0

/-- Whether the arithmetic of the build checks for overflow (and panics) or wraps around. -/
inductive Overflow
  | checked
  | wrapping
  deriving DecidableEq, Repr

def subU32 {ε : Type} (mode : Overflow) (a b : ℕ) : Except (Fault ε) ℕ :=
  if b ≤ a then .ok (a - b)
  else
    match mode with
    | .checked => .error .panic
    | .wrapping => .ok (a + 2 ^ 32 - b)

/-- The length of the properties from their length with the length field. -/
def varIntLenFromSize {ε : Type} (mode : Overflow) (val : ℕ) : Except (Fault ε) ℕ := do
  let overSize := varIntLenU32 val
  let res := (← subU32 mode val overSize) + 1
  subU32 mode val (varIntLenU32 res)

def wrapSub (a b : ℕ) : ℕ := if b ≤ a then a - b else a + 2 ^ 32 - b

theorem eq_wrapSub_of_ok {ε : Type} {mode : Overflow} {a b : ℕ}
    (h : (subU32 mode a b : Except (Fault ε) ℕ) = .ok n) : n = wrapSub a b := by
  unfold subU32 at h
  unfold wrapSub
  split_ifs at h ⊢
  · exact (Except.ok.inj h).symm
  · cases mode with
    | checked => cases h
    | wrapping => exact (Except.ok.inj h).symm

theorem subU32_of_le {ε : Type} {mode : Overflow} {a b : ℕ} (h : b ≤ a) :
    (subU32 mode a b : Except (Fault ε) ℕ) = .ok (a - b) := if_pos h

theorem subU32_of_eq_add {ε : Type} {mode : Overflow} {a b c : ℕ} (h : a = b + c) :
    (subU32 mode a b : Except (Fault ε) ℕ) = .ok c := by
  rw [subU32_of_le (by omega), h, Nat.add_sub_cancel_left]

theorem subU32_checked {ε : Type} {a b : ℕ} :
    (subU32 .checked a b : Except (Fault ε) ℕ) = .ok n ↔ b ≤ a ∧ n = a - b := by
  unfold subU32
  split_ifs with h <;> simp [h, eq_comm]

theorem subU32_wrapping {ε : Type} (a b : ℕ) :
    ∃ n, (subU32 .wrapping a b : Except (Fault ε) ℕ) = .ok n := by
  unfold subU32
  split_ifs <;> exact ⟨_, rfl⟩

def sevens (n : ℕ) : ℕ :=
  if n < 128 then 1
  else if n < 128 ^ 2 then 2
  else if n < 128 ^ 3 then 3
  else if n < 128 ^ 4 then 4
  else 5

theorem sevens_eq (h : n < 2 ^ 32) : sevens n = max 1 ((n.size + 6) / 7) := by
  have hle : ∀ {k}, n < 2 ^ k → n.size ≤ k := fun h => size_le.2 h
  have hlt : ∀ {k}, 2 ^ k ≤ n → k < n.size := fun h => lt_size.2 h
  unfold sevens
  split_ifs with h₁ h₂ h₃ h₄
  · have := hle (k := 7) (by omega)
    omega
  · have := hle (k := 14) (by omega)
    have := hlt (k := 7) (by omega)
    omega
  · have := hle (k := 21) (by omega)
    have := hlt (k := 14) (by omega)
    omega
  · have := hle (k := 28) (by omega)
    have := hlt (k := 21) (by omega)
    omega
  · have := hle h
    have := hlt (k := 28) (by omega)
    omega

/-- The tables count bytes of seven bits. -/
theorem varIntLen_eq_sevens (h : n < 2 ^ 32) : varIntLen n = sevens n := by
  have hmap : ∀ s ≤ 32, varIntMap.getD (64 - s) 0 = max 1 ((s + 6) / 7) := by decide
  rw [sevens_eq h]
  exact hmap _ (size_le.2 h)

theorem varIntLenU32_eq_sevens (h : n < 2 ^ 32) : varIntLenU32 n = sevens n := by
  have hmap : ∀ s ≤ 32, varIntMapU32.getD (32 - s) 0 = max 1 ((s + 6) / 7) := by decide
  rw [sevens_eq h]
  exact hmap _ (size_le.2 h)

theorem length_varLen (h : n ≤ maxPacketSize) : (varLen n).length = sevens n := by
  unfold maxPacketSize at h
  unfold varLen sevens
  split_ifs <;> first | rfl | omega

theorem varIntLen_eq (h : n ≤ maxPacketSize) : varIntLen n = (varLen n).length := by
  rw [length_varLen h, varIntLen_eq_sevens (h.trans_lt (by decide))]

theorem sevens_mono : Monotone sevens := by
  intro a b hab
  unfold sevens
  split_ifs <;> omega

theorem sevens_pos (n : ℕ) : 0 < sevens n := by
  unfold sevens
  split_ifs <;> omega

theorem sevens_le_five (n : ℕ) : sevens n ≤ 5 := by
  unfold sevens
  split_ifs <;> omega

theorem sevens_add_le {l k : ℕ} (hk : k ≤ 5) : sevens (l + k) ≤ sevens l + 1 := by
  unfold sevens
  split_ifs <;> omega

/-- The length of the properties is recovered from the length with the length field. -/
theorem varIntLenFromSize_eq {ε : Type} (mode : Overflow) {l : ℕ} (h : l ≤ maxPacketSize) :
    (varIntLenFromSize mode (l + varIntLen l) : Except (Fault ε) ℕ) = .ok l := by
  have hl : l ≤ 268435455 := h
  have hk := sevens_le_five l
  have hk' := sevens_pos l
  rw [varIntLen_eq_sevens (by omega)]
  -- the first guess is at most one byte too long
  have hle : sevens (l + sevens l) ≤ sevens l + 1 := sevens_add_le hk
  have hge : sevens l ≤ sevens (l + sevens l) := sevens_mono (by omega)
  have hover : sevens (l + sevens l) ≤ l + sevens l := by
    rcases Nat.eq_zero_or_pos l with rfl | hpos
    · decide
    · omega
  have hres : sevens (l + sevens l - sevens (l + sevens l) + 1) = sevens l := by
    rcases lt_or_ge (sevens l) (sevens (l + sevens l)) with hs | hs
    · congr 1
      omega
    · refine le_antisymm ((sevens_mono ?_).trans hs) (sevens_mono ?_)
      · omega
      · omega
  unfold varIntLenFromSize
  simp only [varIntLenU32_eq_sevens (show l + sevens l < 2 ^ 32 by omega), subU32_of_le hover, bind,
    Except.bind]
  rw [varIntLenU32_eq_sevens (by omega), hres, subU32_of_le (by omega), Nat.add_sub_cancel]

theorem decodeVariableLength_le {src : Bytes} {k : ℕ} (h : decodeVariableLength src = .ok (some (n, k))) :
    n ≤ maxPacketSize ∧ (varLen n).length ≤ k := by
  rw [decodeVariableLength] at h
  split at h <;> cases h
  rename_i rest hd
  have hsafe := (safe_decodeVariableLengthCursor src).of_ok hd
  exact ⟨hsafe.1, by omega⟩

/-- A number is written in the shortest form that is accepted and read back with the length of this form, no larger
number is accepted, and the length of properties is recovered from the length with its length field. -/
theorem varInt_exact (mode : Overflow) (buf : Bytes) :
    (∀ n ≤ maxPacketSize, ∃ bs, writeVariableLength n buf = (.ok (), buf ++ bs) ∧ varIntLen n = bs.length ∧
      (∀ src k, decodeVariableLength src = .ok (some (n, k)) → bs.length ≤ k) ∧
      (∀ rest, decodeVariableLength (bs ++ rest) = .ok (some (n, bs.length))) ∧
      (varIntLenFromSize mode (n + bs.length) : Except (Fault EncodeError) ℕ) = .ok n) ∧
    ∀ src n k, decodeVariableLength src = .ok (some (n, k)) → n ≤ maxPacketSize := by
  refine ⟨fun n hn => ⟨varLen n, ?_, varIntLen_eq hn, ?_, ?_, ?_⟩, fun src n k h => (decodeVariableLength_le h).1⟩
  · exact (spec_writeVariableLength n).run hn buf
  · exact fun src k h => (decodeVariableLength_le h).2
  · exact decodeVariableLength_append (reads_decodeVariableLengthCursor hn)
  · rw [← varIntLen_eq hn]
    exact varIntLenFromSize_eq mode hn

end FerroMq.Codec
