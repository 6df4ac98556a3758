import FerroMq.Codec.V5.Format

/-!
# What the MQTT 5 encoder writes

Under a limit the encoder writes the complete content of a packet that differs from the given one in its error
description only (`Packet.spec_encodeContent`).  `keepDiag` is the part of it that `encodedSizeOptProps` has
counted and `encodeOptProps` writes.
-/

namespace FerroMq.Codec.V5

open Lib List

/-! ## Properties -/

section Properties

variable {α : Type} [WireFormat α]

theorem encodedPropertySizeDefault_eq [DecidableEq α] (v d : α) :
    encodedPropertySizeDefault v d = encodedPropertySize (nonDefault v d) := by
  unfold encodedPropertySizeDefault nonDefault
  split_ifs <;> rfl

theorem encodePropertyDefault_eq [DecidableEq α] (v d : α) (id : UInt8) :
    encodePropertyDefault v d id = encodeProperty (nonDefault v d) id := by
  unfold encodePropertyDefault nonDefault
  by_cases h : v = d
  · rw [if_neg (not_not.2 h), if_pos h]
    rfl
  · rw [if_pos h, if_neg h]
    rfl

variable [StrictFormat α]

theorem strict_encodeProperty (o : Option α) (id : UInt8) :
    Enc.Strict (encodeProperty o id) (FitsOpt o) (propWire id o) := by
  cases o with
  | none => exact Enc.Strict.pure.congr (iff_of_true trivial fitsOpt_none) fun _ => rfl
  | some a =>
    exact Enc.Strict.congr ((Enc.Strict.putU8 id).andThen (StrictFormat.strict a)) (by rw [fitsOpt_some])
      fun _ => rfl

theorem strict_encodeAny (o : Option α) (id : UInt8) (h : ∀ a : α, Fits a := by exact fun _ => trivial) :
    Enc.Strict (encodeProperty o id) True (propWire id o) :=
  (strict_encodeProperty o id).congr (iff_of_true (fitsOpt_of_forall h o) trivial) fun _ => rfl

end Properties

theorem strict_encodeUserProperties (props : UserProperties) :
    Enc.Strict (UserProperties.encode props) (FitsAll props) (userWire props) :=
  Enc.Spec.forM props fun p => (Enc.Strict.putU8 _).andThen (StrictFormat.strict p)

variable {ups : UserProperties} {reason : Option String} {limit n : ℕ}

theorem length_withLen {props : Bytes} (h : props.length ≤ maxPacketSize) :
    (withLen props).length = varIntLen props.length + props.length := by
  rw [withLen, length_append, varIntLen_eq h]

theorem strict_withLen {e : Enc EncodeError Unit} {C : Prop} {props : Bytes} (hn : n = props.length)
    (h : props.length ≤ maxPacketSize) (he : Enc.Strict e C props) :
    Enc.Strict (do writeVariableLength n; e) C (withLen props) := by
  subst hn
  exact (strict_writeVariableLength h).andThen he

theorem mod_eq_of_le_max (h : n ≤ maxPacketSize) : n % 2 ^ 32 = n :=
  Nat.mod_eq_of_lt (h.trans_lt (by decide))

/-! ## The error description under a limit -/

def Diag.cons (up : UserProperty) (d : Diag) : Diag := ⟨up :: d.userProperties, d.reasonString⟩

/-- The part of the description that fits into the limit. -/
def keepDiag : UserProperties → Option String → ℕ → Diag
  | [], none, _ => ⟨[], none⟩
  | [], some reason, limit =>
    if 1 + encodedSize reason ≤ limit then ⟨[], some reason⟩ else ⟨[], none⟩
  | up :: ups, reason, limit =>
    if 1 + encodedSize up > limit then ⟨[], none⟩
    else (keepDiag ups reason (limit - (1 + encodedSize up))).cons up

theorem Diag.TrimOf.cons {d : Diag} (h : Diag.TrimOf ⟨ups, reason⟩ d) (up : UserProperty) :
    Diag.TrimOf ⟨up :: ups, reason⟩ (d.cons up) := by
  refine ⟨cons_prefix_cons.2 ⟨rfl, h.isPrefix⟩, h.reasonString, fun hne => ?_⟩
  exact h.reasonString_of_dropped fun heq => hne (congrArg (up :: ·) heq)

theorem keepDiag_trimOf (ups : UserProperties) (reason : Option String) (limit : ℕ) :
    Diag.TrimOf ⟨ups, reason⟩ (keepDiag ups reason limit) := by
  induction ups generalizing limit with
  | nil =>
    cases reason with
    | none => exact ⟨prefix_rfl, Or.inl rfl, fun _ => rfl⟩
    | some reason =>
      rw [keepDiag]
      split_ifs
      · exact ⟨prefix_rfl, Or.inl rfl, fun h => absurd rfl h⟩
      · exact ⟨prefix_rfl, Or.inr rfl, fun _ => rfl⟩
  | cons up ups ih =>
    rw [keepDiag]
    split_ifs
    · exact ⟨List.nil_prefix, Or.inr rfl, fun _ => rfl⟩
    · exact (ih _).cons up

variable (up : UserProperty) (mode : Overflow)

@[simp] theorem Diag.wire_cons (d : Diag) :
    (d.cons up).wire = PropertyType.user :: Codec.wire up ++ d.wire := by
  simp [Diag.wire, Diag.cons, userWire]

theorem Diag.length_wire_cons (d : Diag) :
    (d.cons up).wire.length = 1 + encodedSize up + d.wire.length := by
  rw [Diag.wire_cons, length_append, length_cons, length_wire]
  omega

theorem Diag.fits_cons (d : Diag) :
    (d.cons up).Fits ↔ Codec.Fits up ∧ d.Fits := by
  simp [Diag.Fits, Diag.cons, FitsAll, and_assoc]

theorem Diag.fits_nil : Diag.Fits ⟨[], none⟩ := by
  simp [Diag.Fits, FitsAll, FitsOpt]

theorem Diag.fits_reason (reason : String) :
    Diag.Fits ⟨[], some reason⟩ ↔ Codec.Fits reason := by
  simp [Diag.Fits, FitsAll, FitsOpt]

@[simp] theorem Diag.wire_nil_none : Diag.wire ⟨[], none⟩ = [] := rfl

@[simp] theorem Diag.wire_nil_some (reason : String) :
    Diag.wire ⟨[], some reason⟩ = PropertyType.reasonString :: Codec.wire reason := rfl

theorem encodedSizeOptProps_eq (ups : UserProperties) (reason : Option String) (limit : ℕ) :
    encodedSizeOptProps ups reason limit = (keepDiag ups reason limit).wire.length := by
  induction ups generalizing limit with
  | nil =>
    cases reason with
    | none => rfl
    | some reason =>
      rw [encodedSizeOptProps, keepDiag]
      split_ifs <;> simp [length_wire, Nat.add_comm]
  | cons up ups ih =>
    rw [encodedSizeOptProps, keepDiag]
    split_ifs
    · rfl
    · rw [Diag.length_wire_cons, ih]

/-- Given the number of bytes that were counted, the writer writes the part that was counted. -/
theorem strict_encodeOptProps (ups : UserProperties) (reason : Option String) (limit : ℕ) :
    Enc.Strict (encodeOptProps ups reason (keepDiag ups reason limit).wire.length)
      (keepDiag ups reason limit).Fits (keepDiag ups reason limit).wire := by
  have hnone : Enc.Strict (pure () : Enc EncodeError Unit) (Diag.Fits ⟨[], none⟩)
      (Diag.wire ⟨[], none⟩) :=
    Enc.Strict.pure.congr (iff_of_true trivial Diag.fits_nil) fun _ => rfl
  induction ups generalizing limit with
  | nil =>
    cases reason with
    | none => exact hnone
    | some reason =>
      rw [keepDiag]
      split_ifs
      · have hlt : (utf8 reason).length < (Diag.wire ⟨[], some reason⟩).length := by
          rw [Diag.wire_nil_some, length_cons, length_wire]
          simp only [encodedSize]
          omega
        rw [encodeOptProps, if_pos hlt]
        exact Enc.Strict.congr ((Enc.Strict.putU8 _).andThen (StrictFormat.strict reason))
          (Diag.fits_reason reason).symm fun _ => rfl
      · exact hnone
  | cons up ups ih =>
    rw [keepDiag]
    split_ifs with hup
    · rw [encodeOptProps, if_pos (by simp only [Diag.wire_nil_none, length_nil]; omega)]
      exact hnone
    · have hsize : 1 + encodedSize up.1 + encodedSize up.2 = 1 + encodedSize up := by
        simp only [encodedSize]
        omega
      rw [encodeOptProps, Diag.length_wire_cons, hsize, if_neg (by omega),
        Nat.add_sub_cancel_left]
      refine Enc.Strict.congr ((Enc.Strict.putU8 _).andThen ((StrictFormat.strict up).bind (ih _)))
        (Diag.fits_cons up _).symm fun _ => ?_
      rw [Diag.wire_cons]
      rfl

/-! ## CONNECT -/

theorem LastWill.length_propsWire (w : LastWill) : w.propsWire.length = w.propertiesLen := by
  simp only [propsWire, propertiesLen, length_append, length_propWire, length_userWire]
  omega

theorem LastWill.strict_encode {w : LastWill} (h : w.propsWire.length ≤ maxPacketSize) :
    Enc.Strict w.encode w.Fits w.wire := by
  have hlen : w.propertiesLen % 2 ^ 32 = w.propsWire.length := by
    rw [← w.length_propsWire, mod_eq_of_le_max h]
  refine Enc.Strict.congr
    ((strict_writeVariableLength (hlen.trans_le h)).andThen
      ((strict_encodeAny _ _).andThen
      ((strict_encodeAny _ _).andThen
      ((strict_encodeAny _ _).andThen
      ((strict_encodeProperty _ _).bind
      ((strict_encodeProperty _ _).bind
      ((strict_encodeProperty _ _).bind
      ((strict_encodeUserProperties _).bind
      ((StrictFormat.strict w.topic).bind (StrictFormat.strict w.message)))))))))) ?_ fun _ => ?_
  · constructor
    · rintro ⟨h₁, h₂, h₃, h₄, h₅, h₆⟩
      exact ⟨h₅, h₆, h₃, h₁, h₂, h₄⟩
    · rintro ⟨h₅, h₆, h₃, h₁, h₂, h₄⟩
      exact ⟨h₁, h₂, h₃, h₄, h₅, h₆⟩
  · simp only [hlen, wire, withLen, propsWire, append_assoc]

theorem LastWill.encodedSize_eq {w : LastWill} (h : w.propsWire.length ≤ maxPacketSize) :
    varIntLen w.propertiesLen + w.propertiesLen + encodedSize w.topic + encodedSize w.message =
      w.wire.length := by
  simp only [wire, length_append, length_withLen h, length_wire, w.length_propsWire]

theorem strict_encodeWill {will : Option LastWill}
    (h : ∀ w ∈ will, w.propsWire.length ≤ maxPacketSize) :
    Enc.Strict (encodeWill will) (∀ w ∈ will, LastWill.Fits w)
      ((will.map LastWill.wire).getD []) := by
  cases will with
  | none => exact Enc.Strict.pure.congr (by simp) fun _ => rfl
  | some w => exact (LastWill.strict_encode (h w rfl)).congr (by simp) fun _ => rfl

namespace Connect

theorem length_propsWire (c : Connect) : c.propsWire.length = c.propertiesLen := by
  simp only [propsWire, propertiesLen, length_append, length_propWire, length_userWire,
    encodedPropertySizeDefault_eq]
  omega

theorem length_headWire (c : Connect) : c.headWire.length = 10 := by
  simp only [headWire, length_append, length_sliceWire, length_wire]
  rfl

/-- The lengths that stand in the packet are small enough. -/
def LenOk (c : Connect) : Prop :=
  c.propsWire.length ≤ Codec.maxPacketSize ∧ ∀ w ∈ c.lastWill, w.propsWire.length ≤ Codec.maxPacketSize

variable {c : Connect}

theorem lenOk_of_size (h : c.encodedSize ≤ Codec.maxPacketSize) : c.LenOk := by
  simp only [encodedSize] at h
  refine ⟨by rw [length_propsWire]; omega, fun w hw => ?_⟩
  rw [Option.mem_def] at hw
  simp only [hw, Option.map_some, Option.getD_some] at h
  rw [w.length_propsWire]
  omega

theorem encodedSize_eq (h : c.LenOk) : c.encodedSize = c.wire.length := by
  have hwill : (c.lastWill.map fun will => varIntLen will.propertiesLen + will.propertiesLen
      + Encode.encodedSize will.topic + Encode.encodedSize will.message).getD 0 =
      ((c.lastWill.map LastWill.wire).getD []).length := by
    rcases hw : c.lastWill with _ | w
    · rfl
    · exact LastWill.encodedSize_eq (h.2 w hw)
  simp only [encodedSize, wire, length_append, length_headWire, length_withLen h.1,
    Codec.length_wire, length_optWire, c.length_propsWire, hwill]
  omega

theorem strict_encode (h : c.LenOk) : Enc.Strict c.encode c.Fits c.wire := by
  have hlen : c.propertiesLen % 2 ^ 32 = c.propsWire.length := by
    rw [← c.length_propsWire, mod_eq_of_le_max h.1]
  unfold encode
  simp only [encodePropertyDefault_eq]
  refine Enc.Strict.congr
    ((strict_encodeSlice _).bind
      ((Enc.Strict.putSlice _).andThen
      (.andThen (StrictFormat.strict c.keepAlive)
      ((strict_writeVariableLength (hlen.trans_le h.1)).andThen
      ((strict_encodeAny _ _).andThen
      ((strict_encodeProperty c.authMethod _).bind
      ((strict_encodeProperty c.authData _).bind
      ((strict_encodeAny _ _).andThen
      ((strict_encodeAny _ _).andThen
      ((strict_encodeAny _ _).andThen
      ((strict_encodeAny _ _).andThen
      ((strict_encodeAny _ _).andThen
      ((strict_encodeUserProperties _).bind
      ((StrictFormat.strict c.clientId).bind
      ((strict_encodeWill h.2).bind
      ((strict_encodeOption c.username).bind (strict_encodeOption c.password)))))))))))))))))
    ?_ fun _ => ?_
  · constructor
    · rintro ⟨-, h₁, h₂, h₃, h₄, h₅, h₆, h₇⟩
      exact ⟨h₁, h₂, h₃, h₄, h₅, h₆, h₇⟩
    · rintro ⟨h₁, h₂, h₃, h₄, h₅, h₆, h₇⟩
      exact ⟨by decide, h₁, h₂, h₃, h₄, h₅, h₆, h₇⟩
  · simp only [hlen, wire, headWire, withLen, propsWire, append_assoc]

end Connect

/-! ## Packets that end with an error description -/

theorem varIntLenFromSize_withLen {props : Bytes} (h : props.length ≤ maxPacketSize) :
    (varIntLenFromSize mode (withLen props).length : Except (Fault EncodeError) ℕ) = .ok props.length := by
  rw [length_withLen h, Nat.add_comm, varIntLenFromSize_eq mode h]

/-- The writer of a packet whose last properties are an error description: it has counted the whole
packet before and gives the description the bytes that are left. -/
theorem strict_diagTail {fixed : Enc EncodeError Unit} {C : Prop} {head fx : Bytes}
    {d : Diag} (hd : d = keepDiag ups reason limit) (hn : n = (head ++ withLen (fx ++ d.wire)).length)
    (hmax : n ≤ maxPacketSize)
    (hfixed : Enc.Strict fixed C (head ++ (varLen (fx ++ d.wire).length ++ fx))) :
    Enc.Strict
      (do
        let startLen ← Enc.len
        fixed
        let now ← Enc.len
        let diagLen ← Enc.lift (subU32 mode n ((now - startLen) % 2 ^ 32))
        encodeOptProps ups reason diagLen)
      (C ∧ d.Fits) (head ++ withLen (fx ++ d.wire)) := by
  subst hd
  refine (Enc.Strict.measured
    (k := fun m => Enc.lift (subU32 mode n (m % 2 ^ 32)) >>= encodeOptProps ups reason) hfixed
    fun _ => Enc.Spec.lift ?_ (strict_encodeOptProps ups reason limit)).congr Iff.rfl fun _ => ?_
  · simp only [withLen, length_append] at hn ⊢
    rw [mod_eq_of_le_max (by omega)]
    exact subU32_of_eq_add (by omega)
  · simp only [withLen, append_assoc]

theorem diagTail_size {head fx : Bytes} {len h : ℕ} (hlen : len = fx.length) (hh : h = head.length)
    (hmax : h + varIntLen (len + encodedSizeOptProps ups reason limit)
      + (len + encodedSizeOptProps ups reason limit) ≤ maxPacketSize) :
    h + varIntLen (len + encodedSizeOptProps ups reason limit) + (len + encodedSizeOptProps ups reason limit) =
      (head ++ withLen (fx ++ (keepDiag ups reason limit).wire)).length := by
  have hsum : len + encodedSizeOptProps ups reason limit =
      (fx ++ (keepDiag ups reason limit).wire).length := by
    rw [length_append, encodedSizeOptProps_eq, hlen]
  rw [hsum] at hmax ⊢
  generalize fx ++ (keepDiag ups reason limit).wire = props at hmax ⊢
  rw [length_append, length_withLen (by omega), hh]
  omega

theorem strict_counted {e body : Enc EncodeError Unit} {C : Prop}
    {head props fx : Bytes} {h : ℕ} (hh : h = head.length)
    (hn : n = (head ++ withLen props).length) (hmax : n ≤ maxPacketSize)
    (he : Enc.Strict e True head) (hbody : Enc.Strict body C fx) :
    Enc.Strict
      (do
        e
        let rest ← Enc.lift (subU32 mode n h)
        let propLen ← Enc.lift (varIntLenFromSize mode rest)
        writeVariableLength propLen
        body)
      C (head ++ (varLen props.length ++ fx)) := by
  have hle := le_length_withLen props
  rw [length_append] at hn
  have hprops : props.length ≤ maxPacketSize := by omega
  exact he.andThen (.lift (subU32_of_eq_add (by omega))
    (.lift (varIntLenFromSize_withLen mode hprops) ((strict_writeVariableLength hprops).andThen hbody)))

namespace ConnectAck

theorem length_maxQosWire (a : ConnectAck) :
    a.maxQosWire.length = if a.maxQos < .exactlyOnce then 1 + 1 else 0 := by
  unfold maxQosWire
  split_ifs <;> rfl

theorem strict_encodeMaxQos (a : ConnectAck) : Enc.Strict a.encodeMaxQos True a.maxQosWire := by
  unfold encodeMaxQos maxQosWire
  split_ifs
  · exact Enc.Strict.putSlice _
  · exact Enc.Strict.pure

theorem topicAliasMax_size (v : UInt16) :
    (if v > 0 then 1 + Codec.encodedSize v else 0) = encodedPropertySize (nonDefault v 0) := by
  unfold nonDefault
  by_cases h : v = 0
  · subst h
    rfl
  · rw [if_pos (UInt16.pos_iff_ne_zero.2 h), if_neg h]
    rfl

theorem length_fixedWire (a : ConnectAck) : a.fixedPropertiesLen = a.fixedWire.length := by
  simp only [fixedWire, fixedPropertiesLen, length_append, length_propWire,
    encodedPropertySizeDefault_eq, length_maxQosWire, topicAliasMax_size]
  omega

def kept (a : ConnectAck) (limit : ℕ) : Diag :=
  keepDiag a.userProperties a.reasonString (reduceLimit limit (2 + 4 + a.fixedPropertiesLen))

def trimmed (a : ConnectAck) (limit : ℕ) : ConnectAck :=
  { a with
    userProperties := (a.kept limit).userProperties, reasonString := (a.kept limit).reasonString }

theorem wire_trimmed (a : ConnectAck) (limit : ℕ) :
    (a.trimmed limit).wire = [a.sessionPresent.toUInt8, toU8 a.reasonCode]
      ++ withLen (a.fixedWire ++ (a.kept limit).wire) := rfl

variable {a : ConnectAck}

theorem encodedSize_eq (h : a.encodedSize limit ≤ Codec.maxPacketSize) :
    a.encodedSize limit = (a.trimmed limit).wire.length := by
  rw [wire_trimmed]
  exact diagTail_size a.length_fixedWire rfl h

theorem strict_encodeFixed (mode : Overflow)
    (hn : n = (a.trimmed limit).wire.length) (hmax : n ≤ Codec.maxPacketSize) :
    Enc.Strict (a.encodeFixed mode n)
      (FitsOpt a.assignedClientId ∧ FitsOpt a.responseInfo ∧ FitsOpt a.serverReference ∧
        FitsOpt a.authMethod ∧ FitsOpt a.authData) ([a.sessionPresent.toUInt8, toU8 a.reasonCode]
        ++ (varLen (a.fixedWire ++ (a.kept limit).wire).length ++ a.fixedWire)) := by
  rw [wire_trimmed] at hn
  unfold encodeFixed
  simp only [encodePropertyDefault_eq]
  refine strict_counted mode rfl hn hmax (Enc.Strict.putSlice _) (Enc.Strict.congr
    ((strict_encodeAny _ _).andThen
      ((strict_encodeAny _ _).andThen
      (a.strict_encodeMaxQos.andThen
      ((strict_encodeAny _ _).andThen
      ((strict_encodeAny _ _).andThen
      ((strict_encodeProperty a.assignedClientId _).bind
      ((strict_encodeAny _ _).andThen
      ((strict_encodeAny _ _).andThen
      ((strict_encodeAny _ _).andThen
      ((strict_encodeAny _ _).andThen
      ((strict_encodeAny _ _).andThen
      ((strict_encodeProperty a.responseInfo _).bind
      ((strict_encodeProperty a.serverReference _).bind
      ((strict_encodeProperty a.authMethod _).bind
      (strict_encodeProperty a.authData _))))))))))))))) Iff.rfl fun _ => ?_)
  simp only [fixedWire, append_assoc]

theorem strict_encode (mode : Overflow)
    (hn : n = (a.trimmed limit).wire.length) (hmax : n ≤ Codec.maxPacketSize) :
    Enc.Strict (a.encode mode n) (a.trimmed limit).Fits (a.trimmed limit).wire := by
  have hfixed := strict_encodeFixed mode hn hmax
  rw [wire_trimmed] at hn ⊢
  refine (strict_diagTail mode rfl hn hmax hfixed).congr ?_ fun _ => rfl
  constructor
  · rintro ⟨⟨h₁, h₂, h₃, h₄, h₅⟩, hd⟩
    exact ⟨h₁, h₂, h₃, h₄, h₅, hd⟩
  · rintro ⟨h₁, h₂, h₃, h₄, h₅, hd⟩
    exact ⟨⟨h₁, h₂, h₃, h₄, h₅⟩, hd⟩

end ConnectAck

namespace Disconnect

theorem length_fixedWire (d : Disconnect) : d.fixedPropertiesLen = d.fixedWire.length := by
  simp only [fixedWire, fixedPropertiesLen, length_append, length_propWire]

def kept (d : Disconnect) (limit : ℕ) : Diag :=
  keepDiag d.userProperties d.reasonString (reduceLimit limit (d.fixedPropertiesLen + 1 + 4))

def trimmed (d : Disconnect) (limit : ℕ) : Disconnect :=
  { d with
    userProperties := (d.kept limit).userProperties, reasonString := (d.kept limit).reasonString }

theorem wire_trimmed (d : Disconnect) (limit : ℕ) :
    (d.trimmed limit).wire =
      [toU8 d.reasonCode] ++ withLen (d.fixedWire ++ (d.kept limit).wire) := rfl

theorem encodedSize_eq {d : Disconnect} (h : d.encodedSize limit ≤ maxPacketSize) :
    d.encodedSize limit = (d.trimmed limit).wire.length := by
  rw [wire_trimmed]
  exact diagTail_size d.length_fixedWire rfl h

theorem strict_encode (mode : Overflow) {d : Disconnect}
    (hn : n = (d.trimmed limit).wire.length) (hmax : n ≤ maxPacketSize) :
    Enc.Strict (d.encode mode n) (d.trimmed limit).Fits (d.trimmed limit).wire := by
  rw [wire_trimmed] at hn ⊢
  have hfixed : Enc.Strict (d.encodeFixed mode n) (FitsOpt d.serverReference) _ :=
    strict_counted mode rfl hn hmax (Enc.Strict.putU8 _)
      ((strict_encodeAny _ _).andThen (strict_encodeProperty d.serverReference _))
  refine (strict_diagTail mode rfl hn hmax hfixed).congr ?_ fun _ => rfl
  exact ⟨fun h => ⟨h.1, h.2⟩, fun h => ⟨h.1, h.2⟩⟩

end Disconnect

namespace Auth

theorem length_fixedWire (a : Auth) : a.fixedPropertiesLen = a.fixedWire.length := by
  simp only [fixedWire, fixedPropertiesLen, length_append, length_propWire]

def kept (a : Auth) (limit : ℕ) : Diag :=
  keepDiag a.userProperties a.reasonString (reduceLimit limit (a.fixedPropertiesLen + 1 + 4))

def trimmed (a : Auth) (limit : ℕ) : Auth :=
  { a with
    userProperties := (a.kept limit).userProperties, reasonString := (a.kept limit).reasonString }

theorem wire_trimmed (a : Auth) (limit : ℕ) :
    (a.trimmed limit).wire =
      [toU8 a.reasonCode] ++ withLen (a.fixedWire ++ (a.kept limit).wire) := rfl

theorem encodedSize_eq {a : Auth} (h : a.encodedSize limit ≤ maxPacketSize) :
    a.encodedSize limit = (a.trimmed limit).wire.length := by
  rw [wire_trimmed]
  exact diagTail_size a.length_fixedWire rfl h

theorem strict_encode (mode : Overflow) {a : Auth}
    (hn : n = (a.trimmed limit).wire.length) (hmax : n ≤ maxPacketSize) :
    Enc.Strict (a.encode mode n) (a.trimmed limit).Fits (a.trimmed limit).wire := by
  rw [wire_trimmed] at hn ⊢
  have hfixed : Enc.Strict (a.encodeFixed mode n) (FitsOpt a.authMethod ∧ FitsOpt a.authData) _ :=
    strict_counted mode rfl hn hmax (Enc.Strict.putU8 _)
      ((strict_encodeProperty a.authMethod _).bind (strict_encodeProperty a.authData _))
  refine (strict_diagTail mode rfl hn hmax hfixed).congr ?_ fun _ => rfl
  exact ⟨fun h => ⟨h.1.1, h.1.2, h.2⟩, fun h => ⟨⟨h.1, h.2⟩, h.3⟩⟩

end Auth

/-! ## Acknowledgements -/

namespace AckProps

def kept (ups : UserProperties) (reason : Option String) (limit : ℕ) : Diag :=
  if limit < 4 then ⟨[], none⟩ else keepDiag ups reason (limit - 4)

theorem kept_trimOf (ups : UserProperties) (reason : Option String) (limit : ℕ) :
    Diag.TrimOf ⟨ups, reason⟩ (kept ups reason limit) := by
  unfold kept
  split_ifs
  · exact ⟨List.nil_prefix, Or.inr rfl, fun _ => rfl⟩
  · exact keepDiag_trimOf ups reason _

theorem encodedSize_eq
    (h : encodedSize ups reason limit ≤ maxPacketSize) :
    encodedSize ups reason limit = (withLen (kept ups reason limit).wire).length := by
  unfold encodedSize kept at *
  split_ifs at h ⊢
  · rfl
  · simp only [encodedSizeOptProps_eq] at h ⊢
    rw [length_withLen (by omega)]

theorem length_withLen_eq_one_iff {props : Bytes} :
    (withLen props).length = 1 ↔ props = [] := by
  constructor
  · intro h
    rw [withLen, length_append] at h
    have := length_pos_of_ne_nil (varLen_ne_nil props.length)
    exact length_eq_zero_iff.1 (by omega)
  · rintro rfl
    rfl

theorem Diag.fits_of_wire_eq_nil {d : Diag} (h : d.wire = []) : d.Fits := by
  obtain ⟨ups, reason⟩ := d
  cases ups with
  | cons up ups => cases h
  | nil =>
    cases reason with
    | none => exact Diag.fits_nil
    | some reason => cases h

theorem strict_encode (mode : Overflow) (hn : n = (withLen (kept ups reason limit).wire).length)
    (hmax : n ≤ maxPacketSize) :
    Enc.Strict (encode mode ups reason n) (kept ups reason limit).Fits
      (withLen (kept ups reason limit).wire) := by
  have hle := le_length_withLen (kept ups reason limit).wire
  unfold encode
  split_ifs with h1
  · have hnil := length_withLen_eq_one_iff.1 (hn.symm.trans h1)
    refine (Enc.Strict.putU8 0).congr (iff_of_true trivial (Diag.fits_of_wire_eq_nil hnil)) ?_
    intro _
    rw [hnil]
    rfl
  · have hlimit : ¬ limit < 4 := fun hlt => h1 (by rw [hn, kept, if_pos hlt]; rfl)
    have hkept : kept ups reason limit = keepDiag ups reason (limit - 4) := if_neg hlimit
    rw [hkept] at hn hle ⊢
    refine Enc.Spec.lift (hn ▸ varIntLenFromSize_withLen mode (by omega)) ?_
    exact strict_withLen rfl (by omega) (strict_encodeOptProps ups reason _)

end AckProps

section PublishAcks

variable (pid : NonZeroU16) (code : UInt8)

theorem length_ackWire (diag : Diag) :
    (ackWire pid code diag).length = 3 + (withLen diag.wire).length := by
  rw [ackWire, length_append, length_append, Codec.length_wire]
  rfl

theorem publishAck_size {mode : Overflow}
    (h : publishAckSize mode ups reason limit = .ok n) (hn : n ≤ maxPacketSize) :
    n = (ackWire pid code (AckProps.kept ups reason (wrapSub (wrapSub limit 3) 4))).length := by
  obtain ⟨l₁, h₁, h⟩ := bind_eq_ok_iff.1 h
  obtain ⟨l₂, h₂, h⟩ := bind_eq_ok_iff.1 h
  cases h
  rw [length_ackWire, ← eq_wrapSub_of_ok h₁, ← eq_wrapSub_of_ok h₂,
    AckProps.encodedSize_eq (by omega)]

theorem strict_publishAck (mode : Overflow)
    (hn : n = (ackWire pid code (AckProps.kept ups reason limit)).length)
    (hmax : n ≤ maxPacketSize) :
    Enc.Strict (encodePublishAck mode pid code ups reason n)
      (AckProps.kept ups reason limit).Fits
      (ackWire pid code (AckProps.kept ups reason limit)) := by
  rw [length_ackWire] at hn
  rw [ackWire, append_assoc]
  exact .andThen (StrictFormat.strict pid) ((Enc.Strict.putU8 _).andThen
    (.lift (subU32_of_eq_add hn) (AckProps.strict_encode mode rfl (by omega))))

end PublishAcks

section StatusAcks

variable {α : Type} [PrimEnum α] (pid : NonZeroU16) {status : List α}

theorem length_statusAckWire (diag : Diag) : (statusAckWire pid diag status).length =
    2 + (withLen diag.wire).length + status.length := by
  rw [statusAckWire, length_append, length_append, Codec.length_wire, statusWire,
    length_map]
  rfl

theorem strict_statusAck (mode : Overflow)
    (hn : n = (statusAckWire pid (AckProps.kept ups reason limit) status).length)
    (hmax : n ≤ maxPacketSize) :
    Enc.Strict (encodeStatusAck mode pid ups reason status n)
      (AckProps.kept ups reason limit).Fits
      (statusAckWire pid (AckProps.kept ups reason limit) status) := by
  rw [length_statusAckWire] at hn
  have hsub : (subU32 mode n 2 : Except (Fault EncodeError) ℕ) = .ok (n - 2) :=
    subU32_of_le (by omega)
  have hsub' : (subU32 mode (n - 2) (status.length % 2 ^ 32) : Except (Fault EncodeError) ℕ) =
      .ok (withLen (AckProps.kept ups reason limit).wire).length := by
    rw [mod_eq_of_le_max (by omega)]
    exact subU32_of_eq_add (by omega)
  refine Enc.Strict.congr
    (.andThen (StrictFormat.strict pid) (.lift hsub (.lift hsub'
      ((AckProps.strict_encode mode rfl (by omega)).bind
        (Enc.Spec.forM status fun reason => Enc.Strict.putU8 (toU8 reason)))))) ?_ fun _ => ?_
  · exact ⟨And.left, fun h => ⟨h, fun _ _ => trivial⟩⟩
  · rw [statusAckWire, append_assoc, statusWire, map_eq_flatMap]

end StatusAcks

theorem SubscribeAck.encodedSize_eq {mode : Overflow} {a : SubscribeAck}
    (h : a.encodedSize mode limit = .ok n) (hn : n ≤ maxPacketSize) :
    n = (statusAckWire a.packetId (AckProps.kept a.properties a.reasonString
      (wrapSub (wrapSub limit 2) a.status.length)) a.status).length := by
  unfold SubscribeAck.encodedSize at h
  simp only at h
  split_ifs at h
  · cases h
    exact absurd hn (by decide)
  · obtain ⟨l₁, h₁, h⟩ := bind_eq_ok_iff.1 h
    obtain ⟨l₂, h₂, h⟩ := bind_eq_ok_iff.1 h
    cases h
    rw [length_statusAckWire, ← eq_wrapSub_of_ok h₁, ← eq_wrapSub_of_ok h₂,
      AckProps.encodedSize_eq (by omega)]

theorem UnsubscribeAck.encodedSize_eq {a : UnsubscribeAck} (h : a.encodedSize limit ≤ maxPacketSize) :
    a.encodedSize limit = (statusAckWire a.packetId (AckProps.kept a.properties a.reasonString
      (reduceLimit limit (2 + a.status.length))) a.status).length := by
  unfold UnsubscribeAck.encodedSize at h ⊢
  simp only at h ⊢
  rw [length_statusAckWire, AckProps.encodedSize_eq (by omega)]
  omega

/-! ## SUBSCRIBE and UNSUBSCRIBE -/

theorem spec_writeSubId (id : NonZeroU32) :
    Enc.Spec (do Enc.putU8 PropertyType.subId; writeVariableLength id.1.toNat) (SubIdFits id) False
      (PropertyType.subId :: varLen id.1.toNat) :=
  (Enc.Strict.putU8 _).andThen (spec_writeVariableLength _)

theorem length_subIdsWire {ids : List NonZeroU32} (h : ∀ id ∈ ids, SubIdFits id) :
    (subIdsWire ids).length = (ids.map fun id => 1 + varIntLen id.1.toNat).sum := by
  rw [subIdsWire, length_flatMap]
  refine congrArg List.sum (map_congr_left fun id hid => ?_)
  rw [length_cons, ← varIntLen_eq (h id hid), Nat.add_comm]

namespace Subscribe

variable {s : Subscribe}

theorem length_propsWire (h : ∀ id ∈ s.id, SubIdFits id) : s.propsWire.length = s.propertiesLen := by
  rw [propsWire, length_append, length_userWire,
    length_subIdsWire fun id hid => h id (Option.mem_toList.1 hid), propertiesLen]
  cases s.id <;> simp

theorem length_filtersWire (filters : List (String × SubscriptionOptions)) :
    (filtersWire filters).length = (filters.map fun f => Codec.encodedSize f.1 + 1).sum := by
  simp [filtersWire, length_flatMap, Codec.length_wire]

theorem spec_encodeId (id : Option NonZeroU32) :
    Enc.Spec (encodeId id) (∀ i ∈ id, SubIdFits i) False (subIdsWire id.toList) := by
  cases id with
  | none =>
    exact Enc.Spec.congr Enc.Strict.pure (by simp) (fun h => absurd trivial h) fun _ => rfl
  | some id =>
    exact (spec_writeSubId id).congr (by simp) (fun _ => Iff.rfl) fun _ => by simp [subIdsWire]

theorem encodedSize_eq (hfits : s.Fits) (h : s.propertiesLen ≤ maxPacketSize) :
    s.encodedSize = s.wire.length := by
  have hlen := length_propsWire hfits.id
  simp only [encodedSize, wire, length_append, Codec.length_wire, length_filtersWire]
  rw [length_withLen (by omega), hlen]
  omega

theorem spec_encode (h : s.propertiesLen ≤ maxPacketSize) :
    Enc.Spec s.encode s.Fits (∀ id ∈ s.id, SubIdFits id) s.wire := by
  have hmod := mod_eq_of_le_max h
  refine Enc.Spec.congr
    (.andThen (StrictFormat.strict s.packetId)
      ((strict_writeVariableLength (hmod.trans_le h)).andThen
      ((spec_encodeId s.id).bind fun _ =>
      (strict_encodeUserProperties s.userProperties).bind
      (Enc.Spec.forM s.topicFilters fun f =>
        (StrictFormat.strict f.1).bind (Enc.Strict.putU8 f.2.toByte))))) ?_ (fun _ => ?_) ?_
  · constructor
    · rintro ⟨h₁, h₂, h₃⟩
      exact ⟨h₁, h₂, fun f hf => (h₃ f hf).1⟩
    · rintro ⟨h₁, h₂, h₃⟩
      exact ⟨h₁, h₂, fun f hf => ⟨h₃ f hf, trivial⟩⟩
  · exact ⟨fun hr => not_not.1 hr.1, fun hid => ⟨fun hn => hn hid, fun _ => trivial⟩⟩
  · rintro ⟨h₁, -⟩
    rw [hmod, ← length_propsWire h₁]
    simp only [wire, withLen, propsWire, filtersWire, append_assoc]

end Subscribe

namespace Unsubscribe

theorem length_filtersWire (filters : List String) :
    (filtersWire filters).length = (filters.map fun f => 2 + (utf8 f).length).sum := by
  simp only [filtersWire, length_flatMap, Codec.length_wire]
  rfl

theorem encodedSize_eq {u : Unsubscribe}
    (h : UserProperties.encodedSize u.userProperties ≤ maxPacketSize) :
    u.encodedSize = u.wire.length := by
  have hlen := length_userWire u.userProperties
  simp only [encodedSize, wire, length_append, Codec.length_wire, length_filtersWire]
  rw [length_withLen (by omega), hlen]
  simp only [Codec.encodedSize]
  omega

theorem strict_encode {u : Unsubscribe}
    (h : UserProperties.encodedSize u.userProperties ≤ maxPacketSize) :
    Enc.Strict u.encode u.Fits u.wire := by
  have hlen : UserProperties.encodedSize u.userProperties % 2 ^ 32 =
      (userWire u.userProperties).length := by
    rw [mod_eq_of_le_max h, length_userWire]
  refine Enc.Strict.congr
    (.andThen (StrictFormat.strict u.packetId)
      ((strict_writeVariableLength ((mod_eq_of_le_max h).trans_le h)).andThen
      ((strict_encodeUserProperties u.userProperties).bind
      (Enc.Spec.forM u.topicFilters fun f => StrictFormat.strict f)))) ?_ fun _ => ?_
  · exact ⟨fun h => ⟨h.1, h.2⟩, fun h => ⟨h.1, h.2⟩⟩
  · simp only [hlen, wire, withLen, filtersWire, append_assoc]

end Unsubscribe

/-! ## PUBLISH -/

namespace PublishProperties

/-- No identifier that is too large is reached: there is none, or what comes before is refused. -/
def SubIdsOk (p : PublishProperties) : Prop :=
  FitsOpt p.correlationData → FitsOpt p.contentType → FitsOpt p.responseTopic →
    ∀ id ∈ p.subscriptionIds, SubIdFits id

variable {p : PublishProperties}

theorem length_propsWire (h : ∀ id ∈ p.subscriptionIds, SubIdFits id) :
    (propsWire p).length = propertiesLen p := by
  simp only [propsWire, propertiesLen, length_append, length_propWire, length_userWire,
    encodedPropertySizeDefault_eq, length_subIdsWire h]

theorem spec_encode (mode : Overflow) (hn : n = encodedSize p) (h : propertiesLen p ≤ maxPacketSize) :
    Enc.Spec (encode mode p n) (Fits p) (SubIdsOk p) (withLen (propsWire p)) := by
  have hsize : (varIntLenFromSize mode n : Except (Fault EncodeError) ℕ) = .ok (propertiesLen p) := by
    rw [hn]
    exact varIntLenFromSize_eq mode h
  unfold encode
  simp only [encodePropertyDefault_eq]
  refine Enc.Spec.lift hsize (Enc.Spec.congr
    ((strict_writeVariableLength h).andThen
      ((strict_encodeAny _ _).andThen
      ((strict_encodeProperty p.correlationData _).bind_spec
      ((strict_encodeAny _ _).andThen
      ((strict_encodeProperty p.contentType _).bind_spec
      ((strict_encodeAny _ _).andThen
      ((strict_encodeProperty p.responseTopic _).bind_spec
      ((Enc.Spec.forM p.subscriptionIds spec_writeSubId).bind fun _ =>
      strict_encodeUserProperties p.userProperties)))))))) ?_ (fun _ => ?_) ?_)
  · constructor
    all_goals
      rintro ⟨h₁, h₂, h₃, h₄, h₅⟩
      exact ⟨h₁, h₂, h₃, h₄, h₅⟩
  · constructor
    · exact fun hr h₁ h₂ h₃ => not_not.1 (hr h₁ h₂ h₃).1
    · exact fun hids h₁ h₂ h₃ => ⟨fun hn => hn (hids h₁ h₂ h₃), fun _ => trivial⟩
  · rintro ⟨-, -, -, h₄, -⟩
    rw [← length_propsWire h₄]
    simp only [withLen, propsWire, subIdsWire, append_assoc]

theorem encodedSize_eq (hfits : Fits p)
    (h : propertiesLen p ≤ maxPacketSize) : encodedSize p = (withLen (propsWire p)).length := by
  have hlen := length_propsWire hfits.subscriptionIds
  rw [length_withLen (by omega), hlen, encodedSize, Nat.add_comm]

end PublishProperties

namespace Publish

def SubIdsOk (p : Publish) : Prop :=
  Codec.Fits p.topic → Publish.IdOk p.qos p.packetId → PublishProperties.SubIdsOk (props p)

theorem encodedSize_eq_props (p : Publish) :
    encodedSize p = Codec.encodedSize p.topic + (if p.qos = .atMostOnce then 0 else 2)
      + PublishProperties.encodedSize (props p) + p.payload.length := by
  unfold encodedSize props
  cases p.properties <;> rfl

theorem propertiesLen_le_encodedSize (p : Publish) :
    PublishProperties.propertiesLen (props p) ≤ encodedSize p := by
  have hprops : PublishProperties.propertiesLen (props p) ≤ PublishProperties.encodedSize (props p) :=
    Nat.le_add_right _ _
  rw [encodedSize_eq_props]
  omega

variable {p : Publish}

theorem length_headWire (h : Publish.IdOk p.qos p.packetId) :
    (headWire p).length = Codec.encodedSize p.topic + if p.qos = .atMostOnce then 0 else 2 := by
  rw [headWire, length_append, Codec.length_wire, Publish.length_idWire h]

theorem encode_eq_props (mode : Overflow) (p : Publish) (n : ℕ) :
    encode mode p n = (do
      let startLen ← Enc.len
      encodeHead p
      let now ← Enc.len
      let propSize ← Enc.lift (subU32 mode n ((now - startLen + p.payload.length) % 2 ^ 32))
      PublishProperties.encode mode (props p) propSize
      Enc.putSlice p.payload) := by
  unfold encode props
  cases p.properties <;> rfl

theorem spec_encode (mode : Overflow) (hn : n = encodedSize p)
    (hmax : n ≤ maxPacketSize) : Enc.Spec (encode mode p n) (Fits p) (SubIdsOk p) (wire p) := by
  have hprops := (propertiesLen_le_encodedSize p).trans (hn ▸ hmax)
  rw [encodedSize_eq_props] at hn
  have hhead : Enc.Strict (encodeHead p) (Codec.Fits p.topic ∧ Publish.IdOk p.qos p.packetId)
      (headWire p) := (StrictFormat.strict p.topic).bind (Publish.strict_encodePacketId p)
  have htail := (PublishProperties.spec_encode mode rfl hprops).bind
    (f := fun _ => Enc.putSlice p.payload) fun _ => Enc.Strict.putSlice p.payload
  rw [encode_eq_props]
  refine (Enc.Spec.measured
    (k := fun m => Enc.lift (subU32 mode n ((m + p.payload.length) % 2 ^ 32)) >>= fun propSize =>
      PublishProperties.encode mode (props p) propSize >>= fun _ => Enc.putSlice p.payload) hhead
    fun hok => Enc.Spec.lift ?_ htail).congr ?_ (fun hfits => ?_) fun _ => ?_
  · have hlen := length_headWire hok.2
    rw [mod_eq_of_le_max (by omega)]
    exact subU32_of_eq_add (by omega)
  · exact ⟨fun h => ⟨h.1.1, h.1.2, h.2.1⟩, fun h => ⟨⟨h.1, h.2⟩, h.3, trivial⟩⟩
  · constructor
    · intro hr htopic hid
      by_cases hp : PublishProperties.Fits (props p)
      · exact fun _ _ _ => hp.subscriptionIds
      · exact (hr.2 ⟨htopic, hid⟩).1 hp
    · exact fun hids => ⟨fun _ => trivial, fun h => ⟨fun _ => hids h.1 h.2, fun _ => trivial⟩⟩
  · rw [wire, append_assoc]

theorem encodedSize_eq (hfits : Fits p) (h : PublishProperties.propertiesLen (props p) ≤ maxPacketSize) :
    encodedSize p = (wire p).length := by
  rw [encodedSize_eq_props, wire, length_append, length_append,
    length_headWire hfits.packetId, ← PublishProperties.encodedSize_eq hfits.properties h]

end Publish

/-! ## Packets -/

namespace Packet

def kept (limit : ℕ) : Packet → Diag
  | .connectAck a => a.kept limit
  | .publishAck a | .publishReceived a =>
    AckProps.kept a.properties a.reasonString (wrapSub (wrapSub limit 3) 4)
  | .publishRelease a | .publishComplete a =>
    AckProps.kept a.properties a.reasonString (wrapSub (wrapSub limit 3) 4)
  | .subscribeAck a =>
    AckProps.kept a.properties a.reasonString (wrapSub (wrapSub limit 2) a.status.length)
  | .unsubscribeAck a =>
    AckProps.kept a.properties a.reasonString (reduceLimit limit (2 + a.status.length))
  | .disconnect d => d.kept limit
  | .auth a => a.kept limit
  | _ => ⟨[], none⟩

def trimmed (limit : ℕ) (p : Packet) : Packet := p.withDiag (p.kept limit)

theorem trimOf_trimmed (limit : ℕ) (p : Packet) : p.TrimOf (p.trimmed limit) := by
  cases p
  case connect | publish | subscribe | unsubscribe | pingRequest | pingResponse => rfl
  case connectAck | disconnect | auth => exact ⟨_, keepDiag_trimOf _ _ _, rfl⟩
  all_goals exact ⟨_, AckProps.kept_trimOf _ _ _, rfl⟩

theorem firstByte_trimmed (limit : ℕ) (p : Packet) : (p.trimmed limit).firstByte = p.firstByte := by
  cases p <;> rfl

/-- No subscription identifier that is too large is reached. -/
def SubIdsOk : Packet → Prop
  | .publish pkt => Publish.SubIdsOk pkt
  | .subscribe sub => ∀ id ∈ sub.id, SubIdFits id
  | _ => True

/-- Under a limit, the encoder writes the packet with a trimmed error description, as far as it fits
into the format, and it has counted the bytes right. -/
theorem spec_encodeContent {mode : Overflow} {p : Packet}
    (h : p.encodedSize mode limit = .ok n) (hn : n ≤ maxPacketSize) :
    Enc.Spec (p.encodeContent mode n) (p.trimmed limit).Fits (p.trimmed limit).SubIdsOk
      (p.trimmed limit).wire ∧ ((p.trimmed limit).Fits → (p.trimmed limit).wire.length = n) := by
  cases p with
  | connect c =>
    cases h
    have hlen := Connect.lenOk_of_size hn
    exact ⟨Connect.strict_encode hlen, fun _ => (Connect.encodedSize_eq hlen).symm⟩
  | publish p =>
    cases h
    have hlen := (Publish.propertiesLen_le_encodedSize p).trans hn
    exact ⟨Publish.spec_encode mode rfl hn, fun hf => (Publish.encodedSize_eq hf hlen).symm⟩
  | connectAck a =>
    cases h
    have hlen := ConnectAck.encodedSize_eq hn
    exact ⟨ConnectAck.strict_encode mode hlen hn, fun _ => hlen.symm⟩
  | publishAck a | publishReceived a | publishRelease a | publishComplete a =>
    have hlen := publishAck_size a.packetId (toU8 a.reasonCode) h hn
    exact ⟨strict_publishAck _ _ mode hlen hn, fun _ => hlen.symm⟩
  | subscribe s =>
    cases h
    have hlen : s.propertiesLen ≤ maxPacketSize := by
      simp only [Subscribe.encodedSize] at hn
      omega
    exact ⟨Subscribe.spec_encode hlen, fun hf => (Subscribe.encodedSize_eq hf hlen).symm⟩
  | subscribeAck a =>
    have hlen := SubscribeAck.encodedSize_eq h hn
    exact ⟨strict_statusAck _ mode hlen hn, fun _ => hlen.symm⟩
  | unsubscribe u =>
    cases h
    have hlen : UserProperties.encodedSize u.userProperties ≤ maxPacketSize := by
      simp only [Unsubscribe.encodedSize] at hn
      omega
    exact ⟨Unsubscribe.strict_encode hlen, fun _ => (Unsubscribe.encodedSize_eq hlen).symm⟩
  | unsubscribeAck a =>
    cases h
    have hlen := UnsubscribeAck.encodedSize_eq hn
    exact ⟨strict_statusAck _ mode hlen hn, fun _ => hlen.symm⟩
  | pingRequest | pingResponse =>
    cases h
    exact ⟨Enc.Strict.pure, fun _ => rfl⟩
  | disconnect d =>
    cases h
    have hlen := Disconnect.encodedSize_eq hn
    exact ⟨Disconnect.strict_encode mode hlen hn, fun _ => hlen.symm⟩
  | auth a =>
    cases h
    have hlen := Auth.encodedSize_eq hn
    exact ⟨Auth.strict_encode mode hlen hn, fun _ => hlen.symm⟩

end Packet

end FerroMq.Codec.V5
