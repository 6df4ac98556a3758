import FerroMq.Topic.Forms

/-!
# Byte sizes

`Bytesize::string` prints a size with its units, and `to_bytesize` reads such a text with machine arithmetic: a
build that checks it panics where the sum does not fit, the others return it modulo `2 ^ 64` (`bytesize_iff`).
-/

namespace FerroMq

open Lib Codec List Nat

def bytesizeK : ℕ := 1024

def bytesizeM : ℕ := 1048576

def bytesizeG : ℕ := 1073741824

def pushUnit (n : ℕ) (u : Char) : List Char := if n > 0 then Nat.toDigits 10 n ++ [u] else []

/-- The numbers of a size with their units. -/
def Bytesize.units (self : ℕ) : List (ℕ × Char) :=
  let g := self / bytesizeG
  let v := if g > 0 then self % bytesizeG else self
  let m := v / bytesizeM
  let v := if m > 0 then v % bytesizeM else v
  let k := v / bytesizeK
  let v := if k > 0 then v % bytesizeK else v
  [(g, 'G'), (m, 'M'), (k, 'K'), (v, 'B')]

def printed (xs : List (ℕ × Char)) : List Char := xs.flatMap fun x => pushUnit x.1 x.2

def Bytesize.string (self : ℕ) : String := String.ofList (printed (Bytesize.units self))

inductive ParseSizeError
  | invalidFormat
  | invalidNumber (s : String)
  | invalidUnit (c : Char)
  deriving DecidableEq, Repr

/-- Unicode's upper case of a character, of which only the part in ASCII matters here. -/
structure Uppercase where
  map : Char → List Char
  ascii : ∀ c, c.toNat < 128 → map c = [c.toUpper]

/-- `replace` of a unit and `B` by the unit. -/
def replaceUnit (u : Char) : List Char → List Char
  | c :: d :: cs => if c = u ∧ d = 'B' then u :: replaceUnit u cs else c :: replaceUnit u (d :: cs)
  | cs => cs

def isUnit (c : Char) : Bool := c = 'G' || c = 'M' || c = 'K' || c = 'B'

/-- `split_inclusive` at the units. -/
def splitUnits : List Char → List (List Char)
  | [] => []
  | c :: cs =>
    if isUnit c then [c] :: splitUnits cs
    else
      match splitUnits cs with
      | [] => [[c]]
      | part :: parts => (c :: part) :: parts

/-- `parse::<usize>` -/
def parseUsize (src : List Char) : Except ParseIntError ℕ := parseUnsigned (2 ^ 64) (String.ofList src)

/-- The result of an operation of `usize` whose exact result is `n`. -/
def fitUsize (mode : Overflow) (n : ℕ) : Except (Fault ParseSizeError) ℕ :=
  if n < 2 ^ 64 then .ok n
  else
    match mode with
    | .checked => .error .panic
    | .wrapping => .ok (n % 2 ^ 64)

def parsePart (mode : Overflow) (x : List Char) : Except (Fault ParseSizeError) ℕ :=
  match x.getLast? with
  | none => .error (.err .invalidFormat)
  | some u =>
    match parseUsize x.dropLast with
    | .error _ => .error (.err (.invalidNumber (String.ofList x.dropLast)))
    | .ok v =>
      if u = 'B' then .ok v
      else if u = 'K' then fitUsize mode (v * bytesizeK)
      else if u = 'M' then fitUsize mode (v * bytesizeM)
      else if u = 'G' then fitUsize mode (v * bytesizeG)
      else .error (.err (.invalidUnit u))

def sumParts (mode : Overflow) (sum : ℕ) (parts : List (List Char)) : Except (Fault ParseSizeError) ℕ :=
  parts.foldlM (fun sum x => do fitUsize mode (sum + (← parsePart mode x))) sum

def sizeParts (upper : Uppercase) (text : String) : List (List Char) :=
  splitUnits (replaceUnit 'K' (replaceUnit 'M' (replaceUnit 'G' (text.toList.flatMap upper.map))))

def toBytesize (upper : Uppercase) (mode : Overflow) (text : String) : Except (Fault ParseSizeError) ℕ :=
  sumParts mode 0 (sizeParts upper text)

/-! ## The exact sum -/

def unitSize (u : Char) : ℕ :=
  if u = 'K' then 1024 else if u = 'M' then 1024 ^ 2 else if u = 'G' then 1024 ^ 3 else 1

def withoutPlus (src : List Char) : List Char := if src.head? = some '+' then src.tail else src

/-- The decimal number of a part times its unit. -/
def partSize (x : List Char) : ℕ :=
  decimalFrom 0 (withoutPlus x.dropLast) * ((x.getLast?.map unitSize).getD 1)

def exactSize (parts : List (List Char)) : ℕ := (parts.map partSize).sum

variable {mode : Overflow} {n : ℕ}

theorem fitUsize_of_lt (h : n < 2 ^ 64) : fitUsize mode n = .ok n := if_pos h

theorem fitUsize_ok {k : ℕ} (h : fitUsize mode k = .ok n) : n = k % 2 ^ 64 := by
  unfold fitUsize at h
  split_ifs at h with hk
  · rw [mod_eq_of_lt hk]
    exact (Except.ok.inj h).symm
  · cases mode with
    | checked => exact nomatch h
    | wrapping => exact (Except.ok.inj h).symm

theorem parseUsize_ok {src : List Char} (h : parseUsize src = .ok n) :
    n = decimalFrom 0 (withoutPlus src) ∧ n < 2 ^ 64 := by
  rcases parseUnsigned_eq_ok_iff.1 h with ⟨hsrc, rfl, hlt⟩ | ⟨m, hm, -, rfl, hlt⟩
  · have hdigits := (decimal_iff.1 hsrc).2
    rw [decimalValue, String.toList_ofList] at *
    have hplus : withoutPlus src = src := by
      refine if_neg fun hhead => ?_
      cases hdigits _ (mem_of_mem_head? hhead)
    exact ⟨by rw [hplus], hlt⟩
  · rw [eq_plus_iff, String.toList_ofList] at hm
    subst hm
    exact ⟨rfl, hlt⟩

theorem parsePart_eq {x : List Char} {u : Char} {v : ℕ} (hu : x.getLast? = some u) (hunit : isUnit u = true)
    (hv : parseUsize x.dropLast = .ok v) : parsePart mode x = fitUsize mode (v * unitSize u) := by
  simp only [parsePart, hu, hv]
  simp only [isUnit, Bool.or_eq_true, decide_eq_true_eq] at hunit
  rcases hunit with ((rfl | rfl) | rfl) | rfl
  · simp [unitSize, bytesizeG]
  · simp [unitSize, bytesizeM]
  · simp [unitSize, bytesizeK]
  · have hlt := (parseUsize_ok hv).2
    simp [unitSize, fitUsize_of_lt hlt]

theorem parsePart_ok {x : List Char} (h : parsePart mode x = .ok n) : n = partSize x % 2 ^ 64 := by
  cases hu : x.getLast? with
  | none => simp [parsePart, hu] at h
  | some u =>
    cases hv : parseUsize x.dropLast with
    | error e => simp [parsePart, hu, hv] at h
    | ok v =>
      have hunit : isUnit u = true := by
        by_contra hunit
        simp only [isUnit, Bool.or_eq_true, decide_eq_true_eq, not_or] at hunit
        simp [parsePart, hu, hv, hunit] at h
      rw [parsePart_eq hu hunit hv] at h
      rw [fitUsize_ok h, partSize, hu, (parseUsize_ok hv).1]
      rfl

theorem sumParts_cons (sum : ℕ) (x : List Char) (parts : List (List Char)) : sumParts mode sum (x :: parts) = (do
    let v ← parsePart mode x
    let sum ← fitUsize mode (sum + v)
    sumParts mode sum parts) := by
  rw [sumParts, foldlM_cons, bind_assoc]
  rfl

theorem sumParts_ok {parts : List (List Char)} {sum : ℕ} (hsum : sum < 2 ^ 64)
    (h : sumParts mode sum parts = .ok n) :
    n = (sum + exactSize parts) % 2 ^ 64 := by
  induction parts generalizing sum with
  | nil =>
    obtain rfl := Except.ok.inj h
    exact (mod_eq_of_lt hsum).symm
  | cons x parts ih =>
    rw [sumParts_cons] at h
    obtain ⟨v, hv, h⟩ := bind_eq_ok_iff.1 h
    obtain ⟨sum', hsum', h⟩ := bind_eq_ok_iff.1 h
    obtain rfl := parsePart_ok hv
    obtain rfl := fitUsize_ok hsum'
    rw [ih (mod_lt _ (by norm_num)) h, exactSize, exactSize, map_cons, sum_cons]
    omega

/-! ## Reading what is printed -/

variable {xs : List (ℕ × Char)}

theorem isDigit_toDigits {c : Char} (h : c ∈ Nat.toDigits 10 n) : c.isDigit = true :=
  isDigit_of_mem_toDigits (by norm_num) le_rfl h

theorem parseUsize_toDigits (h : n < 2 ^ 64) : parseUsize (Nat.toDigits 10 n) = .ok n := by
  refine parseUnsigned_eq_ok_iff.2 (.inl ⟨decimal_iff.2 ?_, ?_, h⟩)
  · rw [String.toList_ofList]
    exact ⟨toDigits_ne_nil, fun c hc => isDigit_toDigits hc⟩
  · rw [decimalValue, String.toList_ofList]
    exact ofDigitChars_ten_toDigits

theorem isUnit_of_isDigit {c : Char} (h : c.isDigit = true) : isUnit c = false := by
  simp only [isUnit, Bool.or_eq_false_iff, decide_eq_false_iff_not]
  refine ⟨⟨⟨?_, ?_⟩, ?_⟩, ?_⟩ <;> rintro rfl <;> exact nomatch h

theorem Uppercase.map_eq (upper : Uppercase) {c : Char} (h : c.isDigit = true ∨ isUnit c = true) :
    upper.map c = [c] := by
  rcases h with h | h
  · have hle : c.toNat ≤ 57 := (Char.isDigit_iff_toNat.1 h).2
    rw [upper.ascii c (by omega), Char.toUpper, dif_neg]
    rintro ⟨hge, -⟩
    have : 97 ≤ c.toNat := hge
    omega
  · simp only [isUnit, Bool.or_eq_true, decide_eq_true_eq] at h
    rcases h with ((rfl | rfl) | rfl) | rfl <;> exact upper.ascii _ (by decide)

theorem mem_printed {c : Char} (hxs : ∀ x ∈ xs, isUnit x.2 = true) (hc : c ∈ printed xs) :
    c.isDigit = true ∨ isUnit c = true := by
  obtain ⟨x, hx, hc⟩ := mem_flatMap.1 hc
  unfold pushUnit at hc
  split_ifs at hc
  · rcases mem_append.1 hc with hc | hc
    · exact .inl (isDigit_toDigits hc)
    · exact .inr (mem_singleton.1 hc ▸ hxs x hx)
  · exact nomatch hc

theorem replaceUnit_cons {u c : Char} {cs : List Char} (h : c ≠ u ∨ cs.head? ≠ some 'B') :
    replaceUnit u (c :: cs) = c :: replaceUnit u cs := by
  cases cs with
  | nil => rfl
  | cons d cs =>
    rw [replaceUnit, if_neg]
    rintro ⟨rfl, rfl⟩
    simp at h

theorem splitUnits_append {ds rest : List Char} {u : Char} (hds : ∀ c ∈ ds, isUnit c = false)
    (hu : isUnit u = true) :
    splitUnits (ds ++ u :: rest) = (ds ++ [u]) :: splitUnits rest := by
  induction ds with
  | nil => rw [nil_append, splitUnits, if_pos hu, nil_append]
  | cons c ds ih =>
    obtain ⟨hc, hds⟩ := forall_mem_cons.1 hds
    rw [cons_append, splitUnits, hc, if_neg Bool.false_ne_true, ih hds]
    rfl

theorem printed_cons (x : ℕ × Char) (xs : List (ℕ × Char)) :
    printed (x :: xs) = if x.1 > 0 then Nat.toDigits 10 x.1 ++ x.2 :: printed xs else printed xs := by
  rw [printed, flatMap_cons, pushUnit, ← printed]
  split_ifs
  · rw [append_assoc, singleton_append]
  · rfl

theorem head_printed (xs : List (ℕ × Char)) : (printed xs).head? ≠ some 'B' := by
  induction xs with
  | nil => exact nofun
  | cons x xs ih =>
    rw [printed_cons]
    split_ifs
    · cases hds : Nat.toDigits 10 x.1 with
      | nil => exact absurd hds toDigits_ne_nil
      | cons c ds =>
        have hc : c.isDigit = true := isDigit_toDigits (n := x.1) (by rw [hds]; exact mem_cons_self)
        rintro hB
        obtain rfl : c = 'B' := Option.some.inj hB
        exact nomatch hc
    · exact ih

theorem replaceUnit_printed {u : Char} (hu : isUnit u = true) (xs : List (ℕ × Char)) :
    replaceUnit u (printed xs) = printed xs := by
  induction xs with
  | nil => rfl
  | cons x xs ih =>
    rw [printed_cons]
    split_ifs
    · have hds : ∀ c ∈ Nat.toDigits 10 x.1, c ≠ u := by
        rintro c hc rfl
        rw [isUnit_of_isDigit (isDigit_toDigits hc)] at hu
        exact nomatch hu
      generalize Nat.toDigits 10 x.1 = ds at hds
      induction ds with
      | nil => rw [nil_append, replaceUnit_cons (.inr (head_printed xs)), ih]
      | cons c ds ih =>
        obtain ⟨hc, hds⟩ := forall_mem_cons.1 hds
        rw [cons_append, replaceUnit_cons (.inl hc), ih hds]
    · exact ih

/-- The exact sum of what is printed. -/
def printedSize (xs : List (ℕ × Char)) : ℕ := (xs.map fun x => x.1 * unitSize x.2).sum

theorem printedSize_nil : printedSize [] = 0 := rfl

theorem printedSize_cons (n : ℕ) (u : Char) (xs : List (ℕ × Char)) :
    printedSize ((n, u) :: xs) = n * unitSize u + printedSize xs := by
  rw [printedSize, map_cons, sum_cons, ← printedSize]

theorem unitSize_pos (u : Char) : 0 < unitSize u := by
  unfold unitSize
  split_ifs <;> norm_num

theorem sumParts_printed {sum : ℕ} (hxs : ∀ x ∈ xs, isUnit x.2 = true) (h : sum + printedSize xs < 2 ^ 64) :
    sumParts mode sum (splitUnits (printed xs)) = .ok (sum + printedSize xs) := by
  induction xs generalizing sum with
  | nil => rfl
  | cons x xs ih =>
    obtain ⟨n, u⟩ := x
    obtain ⟨hx : isUnit u = true, hxs⟩ := forall_mem_cons.1 hxs
    rw [printedSize_cons, ← add_assoc] at h ⊢
    rw [printed_cons]
    split_ifs with hpos
    · have hds (c) (hc : c ∈ Nat.toDigits 10 n) := isDigit_toDigits hc
      have hle : n ≤ n * unitSize u := Nat.le_mul_of_pos_right _ (unitSize_pos u)
      have hparse : parseUsize (Nat.toDigits 10 n) = .ok n := parseUsize_toDigits (by omega)
      have hpart : parsePart mode (Nat.toDigits 10 n ++ [u]) = .ok (n * unitSize u) := by
        rw [parsePart_eq getLast?_concat hx (by rw [dropLast_concat, hparse])]
        exact fitUsize_of_lt (by omega)
      rw [splitUnits_append (fun c hc => isUnit_of_isDigit (hds c hc)) hx, sumParts_cons, hpart]
      simp only [bind, Except.bind]
      rw [fitUsize_of_lt (by omega)]
      exact ih hxs h
    · have hzero : n = 0 := by omega
      rw [hzero, zero_mul, add_zero] at h ⊢
      exact ih hxs h

theorem Bytesize.isUnit_units : ∀ x ∈ Bytesize.units n, isUnit x.2 = true := by
  simp [Bytesize.units, isUnit]

theorem Bytesize.units_eq (n : ℕ) : Bytesize.units n = [(n / bytesizeG, 'G'), (n % bytesizeG / bytesizeM, 'M'),
    (n % bytesizeG % bytesizeM / bytesizeK, 'K'), (n % bytesizeG % bytesizeM % bytesizeK, 'B')] := by
  have hmod (v d : ℕ) : (if v / d > 0 then v % d else v) = v % d := by
    split_ifs with h
    · rfl
    · rcases Nat.div_eq_zero_iff.1 (Nat.eq_zero_of_not_pos h) with rfl | hlt
      · exact (mod_zero v).symm
      · exact (mod_eq_of_lt hlt).symm
  simp only [Bytesize.units, hmod]

theorem Bytesize.printedSize_units (n : ℕ) : printedSize (Bytesize.units n) = n := by
  have hG : unitSize 'G' = bytesizeG := by simp [unitSize, bytesizeG]
  have hM : unitSize 'M' = bytesizeM := by simp [unitSize, bytesizeM]
  have hK : unitSize 'K' = bytesizeK := by simp [unitSize, bytesizeK]
  have hB : unitSize 'B' = 1 := by simp [unitSize]
  rw [Bytesize.units_eq, printedSize_cons, printedSize_cons, printedSize_cons, printedSize_cons, printedSize_nil,
    hG, hM, hK, hB, mul_one, add_zero, div_add_mod', div_add_mod', div_add_mod']

theorem toBytesize_string (upper : Uppercase) (hn : n < 2 ^ 64) :
    toBytesize upper mode (Bytesize.string n) = .ok n := by
  have hunits := Bytesize.isUnit_units (n := n)
  have hupper : (printed (Bytesize.units n)).flatMap upper.map = printed (Bytesize.units n) := by
    conv_rhs => rw [← flatMap_singleton' (printed (Bytesize.units n))]
    exact flatMap_congr fun c hc => upper.map_eq (mem_printed hunits hc)
  have hsize : 0 + printedSize (Bytesize.units n) = n := by rw [Bytesize.printedSize_units, zero_add]
  rw [toBytesize, sizeParts, Bytesize.string, String.toList_ofList, hupper, replaceUnit_printed rfl,
    replaceUnit_printed rfl, replaceUnit_printed rfl, sumParts_printed hunits (hsize.symm ▸ hn), hsize]

/-- What is printed for a size is read as this size, and the result for a text is its exact sum exactly if this sum fits
in 64 bits. -/
theorem bytesize_iff (upper : Uppercase) (mode : Overflow) :
    (∀ n < 2 ^ 64, toBytesize upper mode (Bytesize.string n) = .ok n) ∧
      ∀ text n, toBytesize upper mode text = .ok n →
        (n = exactSize (sizeParts upper text) ↔ exactSize (sizeParts upper text) < 2 ^ 64) := by
  refine ⟨fun n hn => toBytesize_string upper hn, fun text n h => ?_⟩
  rw [toBytesize] at h
  rw [sumParts_ok (by norm_num) h, Nat.zero_add]
  exact Nat.mod_eq_iff_lt (by norm_num)

def asciiUpper : Uppercase := ⟨fun c => [c.toUpper], fun _ _ => rfl⟩

/-- `2 ^ 34` gibibytes are read as 0 bytes. -/
theorem toBytesize_wraps : toBytesize asciiUpper .wrapping "17179869184G" = .ok 0 ∧
    exactSize (sizeParts asciiUpper "17179869184G") = 2 ^ 64 := by
  decide +kernel

end FerroMq
