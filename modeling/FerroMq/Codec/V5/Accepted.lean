import FerroMq.Codec.V5.Format

/-!
# What the decoder accepts

The decoder does not panic, and a packet it returns is well formed.  Writing it takes no more bytes than were
read, except for the shortest acknowledgements.  A property loop keeps that the values fit and that their bytes
and those that are left are not more than at the start.
-/

namespace FerroMq.Codec.V5

open Lib List

/-! ## Property loops -/

section Properties

variable {Acc α : Type}

@[simp] theorem encodedPropertySize_none [Encode α] :
    encodedPropertySize (none : Option α) = 0 := rfl

@[simp] theorem encodedPropertySize_some [Encode α] (a : α) :
    encodedPropertySize (some a) = 1 + encodedSize a := rfl

theorem encodedPropertySize_nonDefault_le [Encode α] [DecidableEq α] (o : Option α) (d : α) :
    encodedPropertySize (nonDefault (o.getD d) d) ≤ encodedPropertySize o := by
  unfold nonDefault
  split_ifs with h
  · exact Nat.zero_le _
  · cases o with
    | none => exact absurd rfl h
    | some a => exact le_rfl

theorem fitsAll_nil [WireFormat α] : FitsAll ([] : List α) := nofun

theorem FitsAll.push [WireFormat α] {l : List α} {a : α} (hl : FitsAll l) (ha : Fits a) :
    FitsAll (l ++ [a]) := by
  intro b hb
  rcases mem_append.1 hb with hb | hb
  · exact hl b hb
  · rw [mem_singleton.1 hb]
    exact ha

@[simp] theorem UserProperties.encodedSize_push (l : UserProperties) (p : UserProperty) :
    UserProperties.encodedSize (l ++ [p]) = UserProperties.encodedSize l + (1 + encodedSize p) := by
  simp [UserProperties.encodedSize]

theorem sum_set_add {l : List ℕ} {k old : ℕ} (h : l[k]? = some old) (new : ℕ) :
    (l.set k new).sum + old = l.sum + new := by
  induction l generalizing k with
  | nil => simp at h
  | cons n l ih =>
    cases k with
    | zero =>
      cases h
      simp only [set_cons_zero, sum_cons]
      omega
    | succ k =>
      have := ih (by simpa using h)
      simp only [set_cons_succ, sum_cons]
      omega

/-- What a property loop keeps: what has to fit fits, and the bytes of the parts of the record
together with what is left are not more than `total`. -/
def PropInv (parts : Acc → List ℕ) (Good : Acc → Prop) (total : ℕ) (acc : Acc) (src : Bytes) : Prop :=
  Good acc ∧ (parts acc).sum + src.length ≤ total

/-- Reading a property keeps the invariant. -/
def Keeps (onProperty : UInt8 → Acc → Dec DecodeError Acc) (parts : Acc → List ℕ) (Good : Acc → Prop) : Prop :=
  ∀ total id acc src, PropInv parts Good total acc (id :: src) →
    Dec.Safe (onProperty id acc) src (PropInv parts Good total)

section PropInv

variable {parts : Acc → List ℕ} {Good : Acc → Prop} {total : ℕ} {acc : Acc} {id : UInt8} {src : Bytes}

theorem PropInv.grow {acc' : Acc} {rest : Bytes} {old new : ℕ}
    (h : PropInv parts Good total acc (id :: src)) (hgood : Good acc') (k : ℕ)
    (hold : (parts acc)[k]? = some old) (hnew : parts acc' = (parts acc).set k new)
    (hlen : new + rest.length ≤ old + src.length + 1) : PropInv parts Good total acc' rest := by
  refine ⟨hgood, ?_⟩
  have hsum := sum_set_add hold new
  have htotal := h.2
  rw [hnew]
  rw [length_cons] at htotal
  omega

theorem PropInv.readValue [WireFormat α] {cur : Option α} {set : Option α → Acc}
    (h : PropInv parts Good total acc (id :: src)) (k : ℕ)
    (hgood : Good acc → ∀ o, FitsOpt o → Good (set o) := by exact fun hg _ _ => { hg with })
    (hold : (parts acc)[k]? = some (encodedPropertySize cur) := by rfl)
    (hnew : ∀ a, parts (set (some a)) = (parts acc).set k (1 + encodedSize a) := by exact fun _ => rfl) :
    Dec.Safe (do return set (← Codec.readValue cur)) src (PropInv parts Good total) := by
  refine .bind (.bind (.ensure fun hc => .bind ((WireFormat.safe src).mono ?_)))
  rintro a rest ⟨ha, rfl⟩
  refine .pure (.pure (h.grow (hgood h.1 _ (fitsOpt_some.2 ha)) k hold (hnew a) ?_))
  rw [← length_wire, length_append]
  omega

theorem PropInv.push {l : UserProperties} {set : UserProperty → Acc}
    (h : PropInv parts Good total acc (id :: src)) (k : ℕ)
    (hgood : Good acc → ∀ a, Fits a → Good (set a))
    (hold : (parts acc)[k]? = some (UserProperties.encodedSize l) := by rfl)
    (hnew : ∀ a, parts (set a) = (parts acc).set k (UserProperties.encodedSize (l ++ [a])) := by exact fun _ => rfl) :
    Dec.Safe (do return set (← decode)) src (PropInv parts Good total) := by
  refine .bind ((WireFormat.safe src).mono ?_)
  rintro a rest ⟨ha, rfl⟩
  refine .pure (h.grow (hgood h.1 a ha) k hold (hnew a) ?_)
  rw [UserProperties.encodedSize_push, ← length_wire, length_append]
  omega

end PropInv

theorem safe_properties {β : Type} {onProperty : UInt8 → Acc → Dec DecodeError Acc} {init : Acc}
    {parts : Acc → List ℕ} {Good : Acc → Prop} {k : Acc → Dec DecodeError β} {src : Bytes}
    {Q : β → Bytes → Prop} (hgood : Good init) (hparts : (parts init).sum = 0)
    (hstep : Keeps onProperty parts Good)
    (hk : ∀ acc n rest, Good acc → (parts acc).sum ≤ n → n ≤ maxPacketSize →
      (varLen n).length + n + rest.length ≤ src.length → Dec.Safe (k acc) rest Q) :
    Dec.Safe
      (do
        let propSrc ← takeProperties
        let acc ← readProperties onProperty init propSrc
        k acc) src Q := by
  refine .bind ((safe_takeProperties src).mono fun props rest hlen => .bind (.within ?_))
  have hinit : PropInv parts Good props.length init props := ⟨hgood, by omega⟩
  refine (Dec.Safe.whileRemaining (fun acc src' hne h => ?_) hinit).mono fun acc _ hacc => ?_
  · exact .bind (.getU8 hne fun id rest' hsrc => hstep _ _ _ _ (hsrc ▸ h))
  · have := hacc.2
    exact hk acc props.length rest hacc.1 (by omega) hlen.1 hlen.2

theorem length_withLen_le {props : Bytes} {n : ℕ} (h : props.length ≤ n) (hn : n ≤ maxPacketSize) :
    (withLen props).length ≤ (varLen n).length + n := by
  rw [withLen, length_append, length_varLen (h.trans hn), length_varLen hn]
  exact Nat.add_le_add (sevens_mono h) h

theorem safe_decode [WireFormat α] (src : Bytes) :
    Dec.Safe (decode : Dec DecodeError α) src fun a rest =>
      Fits a ∧ (wire a).length + rest.length = src.length := by
  refine (WireFormat.safe src).mono ?_
  rintro a rest ⟨ha, rfl⟩
  exact ⟨ha, by rw [length_append]⟩

end Properties

/-! ## Acknowledgement properties -/

namespace AckProps

def Acc.parts (acc : Acc) : List ℕ :=
  [UserProperties.encodedSize acc.userProps, encodedPropertySize acc.reasonString]

structure Acc.Good (acc : Acc) : Prop where
  reasonString : FitsOpt acc.reasonString
  userProps : FitsAll acc.userProps

theorem safe_onProperty : Keeps onProperty Acc.parts Acc.Good := by
  intro _ _ _ _ h
  refine .ite ?_ (.ite ?_ .fail)
  · exact h.readValue 1 fun hg _ ho => { hg with reasonString := ho }
  · exact h.push 0 fun hg _ ha => { hg with userProps := hg.userProps.push ha }

end AckProps

/-! ## CONNECT -/

namespace LastWill

def Acc.parts (acc : Acc) : List ℕ :=
  [encodedPropertySize acc.willDelayIntervalSec, encodedPropertySize acc.isUtf8Payload,
    encodedPropertySize acc.messageExpiryInterval, encodedPropertySize acc.contentType,
    encodedPropertySize acc.responseTopic, encodedPropertySize acc.correlationData,
    UserProperties.encodedSize acc.userProperties]

structure Acc.Good (acc : Acc) : Prop where
  correlationData : FitsOpt acc.correlationData
  contentType : FitsOpt acc.contentType
  responseTopic : FitsOpt acc.responseTopic
  userProperties : FitsAll acc.userProperties

theorem safe_onProperty : Keeps onProperty Acc.parts Acc.Good := by
  intro _ _ _ _ h
  refine .ite ?_ (.ite ?_ (.ite ?_ (.ite ?_ (.ite ?_ (.ite ?_ (.ite ?_ .fail))))))
  · exact h.readValue 0
  · exact h.readValue 5 fun hg _ ho => { hg with correlationData := ho }
  · exact h.readValue 2
  · exact h.readValue 3 fun hg _ ho => { hg with contentType := ho }
  · exact h.readValue 1
  · exact h.readValue 4 fun hg _ ho => { hg with responseTopic := ho }
  · exact h.push 6 fun hg _ ha => { hg with userProperties := hg.userProperties.push ha }

theorem sum_parts (w : LastWill) : w.acc.parts.sum = w.propsWire.length := by
  simp [propsWire, length_propWire, length_userWire, Acc.parts, acc]

theorem safe_decode (flags : UInt8) (src : Bytes) :
    Dec.Safe (decode flags) src fun w rest =>
      w.Fits ∧ w.wire.length + rest.length ≤ src.length := by
  refine safe_properties ⟨fitsOpt_none, fitsOpt_none, fitsOpt_none, fitsAll_nil⟩ rfl
    safe_onProperty fun acc n rest hg hsize hn hlen => ?_
  refine .bind ((V5.safe_decode rest).mono fun topic rest₁ ht => ?_)
  refine .bind ((V5.safe_decode rest₁).mono fun message rest₂ hm => ?_)
  refine .bind (PrimEnum.safe_tryFrom fun qos _ => ?_)
  suffices h : ∀ w : LastWill, w.acc = acc → w.topic = topic → w.message = message →
      w.Fits ∧ w.wire.length + rest₂.length ≤ src.length from .pure (h _ rfl rfl rfl)
  rintro w rfl rfl rfl
  refine ⟨⟨ht.1, hm.1, hg.correlationData, hg.contentType, hg.responseTopic, hg.userProperties⟩, ?_⟩
  have := length_withLen_le (w.sum_parts.symm.trans_le hsize) hn
  simp only [wire, length_append]
  omega

end LastWill

theorem safe_decode_le {α : Type} [WireFormat α] (src : Bytes) :
    Dec.Safe (decode : Dec DecodeError α) src fun a rest =>
      Fits a ∧ (wire a).length + rest.length ≤ src.length :=
  (safe_decode src).mono fun _ _ h => ⟨h.1, h.2.le⟩

namespace Connect

def Acc.parts (acc : Acc) : List ℕ :=
  [encodedPropertySize acc.sessionExpiryIntervalSecs, encodedPropertySize acc.authMethod,
    encodedPropertySize acc.authData, encodedPropertySize acc.requestProblemInfo,
    encodedPropertySize acc.requestResponseInfo, encodedPropertySize acc.receiveMax,
    encodedPropertySize acc.maxPacketSize, encodedPropertySize acc.topicAliasMax,
    UserProperties.encodedSize acc.userProperties]

structure Acc.Good (acc : Acc) : Prop where
  authMethod : FitsOpt acc.authMethod
  authData : FitsOpt acc.authData
  userProperties : FitsAll acc.userProperties

theorem safe_onProperty : Keeps onProperty Acc.parts Acc.Good := by
  intro _ _ _ _ h
  refine .ite ?_ (.ite ?_ (.ite ?_ (.ite ?_ (.ite ?_ (.ite ?_ (.ite ?_ (.ite ?_ (.ite ?_ .fail))))))))
  · exact h.readValue 0
  · exact h.readValue 1 fun hg _ ho => { hg with authMethod := ho }
  · exact h.readValue 2 fun hg _ ho => { hg with authData := ho }
  · exact h.readValue 3
  · exact h.readValue 4
  · exact h.readValue 5
  · exact h.readValue 7
  · exact h.push 8 fun hg _ ha => { hg with userProperties := hg.userProperties.push ha }
  · exact h.readValue 6

theorem safe_decodeHead (src : Bytes) :
    Dec.Safe decodeHead src fun _ rest => 10 + rest.length = src.length := by
  refine .bind (.remaining (.bind (.ensure fun hr => ?_)))
  refine .bind ((safe_getU16 (by omega)).mono ?_)
  rintro len rest rfl
  simp only [be16, length_append, length_cons, length_nil] at hr
  refine .bind (.splitTo (by omega) (.bind (.ensure fun _ => .bind (.getU8 ?_ ?_))))
  · exact ne_nil_of_length_pos (by rw [length_drop]; omega)
  intro level rest₁ h₁
  refine .bind (.ensure fun _ => .bind (.getU8 ?_ ?_))
  · refine ne_nil_of_length_pos ?_
    have := congrArg List.length h₁
    simp only [length_drop, length_cons] at this
    omega
  rintro flags rest₂ rfl
  have hlen := congrArg List.length h₁
  simp only [length_drop, length_cons] at hlen
  refine .bind (.ensure fun _ => .bind ((safe_getU16 (by omega)).mono ?_))
  rintro keepAlive rest₃ rfl
  simp only [be16, length_append, length_cons, length_nil] at hlen ⊢
  exact .pure (by omega)

theorem sum_parts (c : Connect) : c.acc.parts.sum = c.propsWire.length := by
  simp [propsWire, length_propWire, length_userWire, Acc.parts, acc]

def Acc.normal (acc : Acc) : Acc := { acc with
  sessionExpiryIntervalSecs := nonDefault (acc.sessionExpiryIntervalSecs.getD 0) 0
  requestProblemInfo := nonDefault (acc.requestProblemInfo.getD true) true
  requestResponseInfo := nonDefault (acc.requestResponseInfo.getD false) false
  topicAliasMax := nonDefault (acc.topicAliasMax.getD 0) 0 }

theorem Acc.sum_parts_normal_le (acc : Acc) : acc.normal.parts.sum ≤ acc.parts.sum :=
  List.Forall₂.sum_le_sum (by simp [Acc.parts, Acc.normal, encodedPropertySize_nonDefault_le])

theorem safe_decode (src : Bytes) :
    Dec.Safe decode src fun c rest =>
      (Packet.connect c).WellFormed ∧ c.wire.length + rest.length ≤ src.length := by
  refine .bind ((safe_decodeHead src).mono fun ⟨flags, keepAlive⟩ rest hhead => ?_)
  refine safe_properties ⟨fitsOpt_none, fitsOpt_none, fitsAll_nil⟩ rfl
    safe_onProperty fun acc n rest₁ hg hsize hn hlen => ?_
  refine .bind ((V5.safe_decode rest₁).mono fun clientId rest₂ hid => ?_)
  refine .bind (.ensure fun hr => ?_)
  refine .bind ((safe_decodeIf _ (LastWill.safe_decode flags rest₂)).mono fun will rest₃ hw => ?_)
  refine .bind ((safe_decodeIf _ (safe_decode_le rest₃)).mono fun username rest₄ hu => ?_)
  refine .bind ((safe_decodeIf _ (safe_decode_le rest₄)).mono fun password rest₅ hp => ?_)
  suffices h : ∀ c : Connect, c.acc = acc.normal → c.clientId = clientId → c.lastWill = will →
      c.username = username → c.password = password → c.cert = none →
      c.cleanStart = hasFlag flags ConnectFlags.cleanStart →
      (Packet.connect c).WellFormed ∧ c.wire.length + rest₅.length ≤ src.length from
    .pure (h _ rfl rfl rfl rfl rfl rfl rfl)
  rintro c hacc rfl rfl rfl rfl hcert hclean
  have hg' : c.acc.Good := hacc ▸ ({ hg with } : acc.normal.Good)
  refine ⟨⟨⟨hg'.authMethod, hg'.authData, hg'.userProperties, hid.1, hw.1, hu.1, hp.1⟩, ?_, ?_⟩, ?_⟩
  · change c.clientId ≠ "" ∨ c.cleanStart = true
    rwa [hclean]
  · rw [Packet.normal, ← hcert]
  · have hprops : c.propsWire.length ≤ n := by
      rw [← sum_parts, hacc]
      exact acc.sum_parts_normal_le.trans hsize
    have := length_withLen_le hprops hn
    have hhead' : c.headWire.length = 10 := rfl
    simp only [wire, optWire, length_append]
    omega

end Connect

/-! ## CONNACK -/

namespace ConnectAck

def maxQosLen (o : Option QoS) : ℕ := (o.map fun _ => 2).getD 0

def Acc.parts (acc : Acc) : List ℕ :=
  [encodedPropertySize acc.sessionExpiryIntervalSecs, encodedPropertySize acc.receiveMax,
    maxQosLen acc.maxQos, encodedPropertySize acc.retainAvailable,
    encodedPropertySize acc.maxPacketSize, encodedPropertySize acc.assignedClientId,
    encodedPropertySize acc.topicAliasMax, encodedPropertySize acc.wildcardSubAvail,
    encodedPropertySize acc.subIdsAvail, encodedPropertySize acc.sharedSubAvail,
    encodedPropertySize acc.serverKaSec, encodedPropertySize acc.responseInfo,
    encodedPropertySize acc.serverReference, encodedPropertySize acc.authMethod,
    encodedPropertySize acc.authData, UserProperties.encodedSize acc.userProperties,
    encodedPropertySize acc.reasonString]

structure Acc.Good (acc : Acc) : Prop where
  assignedClientId : FitsOpt acc.assignedClientId
  reasonString : FitsOpt acc.reasonString
  userProperties : FitsAll acc.userProperties
  responseInfo : FitsOpt acc.responseInfo
  serverReference : FitsOpt acc.serverReference
  authMethod : FitsOpt acc.authMethod
  authData : FitsOpt acc.authData

theorem safe_readMaxQos {cur : Option QoS} {src : Bytes} {Q : Option QoS → Bytes → Prop}
    (h : cur = none → ∀ b q rest, src = b :: rest → Q (some q) rest) :
    Dec.Safe (readMaxQos cur) src Q := by
  refine .bind (.ensure fun hc => .bind (.hasRemaining (.bind (.ensure fun hne => ?_))))
  refine .bind (.getU8 (by simpa using hne) fun b rest hsrc => ?_)
  exact .bind (PrimEnum.safe_tryFrom fun q _ => .pure (h hc b q rest hsrc))

theorem safe_onProperty : Keeps onProperty Acc.parts Acc.Good := by
  intro _ _ _ _ h
  refine .ite ?_ (.ite ?_ (.ite ?_ (.ite ?_ (.ite ?_ (.ite ?_ (.ite ?_ (.ite ?_ (.ite ?_ (.ite ?_
    (.ite ?_ (.ite ?_ (.ite ?_ (.ite ?_ (.ite ?_ (.ite ?_ (.ite ?_ .fail))))))))))))))))
  · exact h.readValue 0
  · exact h.readValue 1
  · refine .bind (safe_readMaxQos fun hc b q rest hsrc => .pure ?_)
    refine h.grow { h.1 with } 2 rfl rfl ?_
    simp [maxQosLen, hsrc]
    omega
  · exact h.readValue 3
  · exact h.readValue 4
  · exact h.readValue 5 fun hg _ ho => { hg with assignedClientId := ho }
  · exact h.readValue 6
  · exact h.readValue 16 fun hg _ ho => { hg with reasonString := ho }
  · exact h.push 15 fun hg _ ha => { hg with userProperties := hg.userProperties.push ha }
  · exact h.readValue 7
  · exact h.readValue 8
  · exact h.readValue 9
  · exact h.readValue 10
  · exact h.readValue 11 fun hg _ ho => { hg with responseInfo := ho }
  · exact h.readValue 12 fun hg _ ho => { hg with serverReference := ho }
  · exact h.readValue 13 fun hg _ ho => { hg with authMethod := ho }
  · exact h.readValue 14 fun hg _ ho => { hg with authData := ho }

theorem maxQosLen_nonDefault (a : ConnectAck) :
    maxQosLen (nonDefault a.maxQos .exactlyOnce) = a.maxQosWire.length := by
  unfold maxQosWire nonDefault
  cases a.maxQos <;> rfl

theorem sum_parts (a : ConnectAck) : a.acc.parts.sum = (a.fixedWire ++ a.diag.wire).length := by
  simp [fixedWire, diag, Diag.wire, length_propWire, length_userWire, maxQosLen_nonDefault, Acc.parts, acc]

def Acc.normal (acc : Acc) : Acc := { acc with
  receiveMax := nonDefault (acc.receiveMax.getD receiveMaxDefault) receiveMaxDefault
  maxQos := nonDefault (acc.maxQos.getD .exactlyOnce) .exactlyOnce
  retainAvailable := nonDefault (acc.retainAvailable.getD true) true
  topicAliasMax := nonDefault (acc.topicAliasMax.getD 0) 0
  wildcardSubAvail := nonDefault (acc.wildcardSubAvail.getD true) true
  subIdsAvail := nonDefault (acc.subIdsAvail.getD true) true
  sharedSubAvail := nonDefault (acc.sharedSubAvail.getD true) true }

theorem maxQosLen_nonDefault_le (o : Option QoS) :
    maxQosLen (nonDefault (o.getD .exactlyOnce) .exactlyOnce) ≤ maxQosLen o := by
  rcases o with _ | _ | _ | _ <;> decide

theorem Acc.sum_parts_normal_le (acc : Acc) : acc.normal.parts.sum ≤ acc.parts.sum :=
  List.Forall₂.sum_le_sum (by
    simp [Acc.parts, Acc.normal, encodedPropertySize_nonDefault_le, maxQosLen_nonDefault_le])

theorem safe_decode (src : Bytes) :
    Dec.Safe decode src fun a rest => a.Fits ∧ a.wire.length + rest.length ≤ src.length := by
  refine .bind (.remaining (.bind (.ensure fun hr => ?_)))
  refine .bind (.getU8 (ne_nil_of_length_pos (by omega)) ?_)
  rintro flags rest rfl
  rw [length_cons] at hr
  refine .bind (.ensure fun _ => .bind (.getU8 (ne_nil_of_length_pos (by omega)) ?_))
  rintro reason rest₁ rfl
  refine .bind (PrimEnum.safe_tryFrom fun reasonCode _ => ?_)
  refine safe_properties ⟨fitsOpt_none, fitsOpt_none, fitsAll_nil, fitsOpt_none, fitsOpt_none,
    fitsOpt_none, fitsOpt_none⟩ rfl safe_onProperty fun acc n rest₂ hg hsize hn hlen => ?_
  refine .bind (.hasRemaining (.bind (.ensure fun _ => ?_)))
  suffices h : ∀ a : ConnectAck, a.acc = acc.normal →
      a.Fits ∧ a.wire.length + rest₂.length ≤ (flags :: reason :: rest₁).length from .pure (h _ rfl)
  intro a hacc
  have hg' : a.acc.Good := hacc ▸ ({ hg with } : acc.normal.Good)
  refine ⟨⟨hg'.assignedClientId, hg'.responseInfo, hg'.serverReference, hg'.authMethod,
    hg'.authData, hg'.userProperties, hg'.reasonString⟩, ?_⟩
  have hprops : (a.fixedWire ++ a.diag.wire).length ≤ n := by
    rw [← sum_parts, hacc]
    exact acc.sum_parts_normal_le.trans hsize
  have := length_withLen_le hprops hn
  simp only [wire, length_append, length_cons, length_nil] at this ⊢
  omega

end ConnectAck

/-! ## PUBLISH -/

theorem safe_readSubId {src : Bytes} {Q : NonZeroU32 → Bytes → Prop}
    (h : ∀ id rest, SubIdFits id → (varLen id.1.toNat).length + rest.length ≤ src.length → Q id rest) :
    Dec.Safe readSubId src Q := by
  refine .bind ((safe_decodeVariableLengthCursor src).mono ?_)
  rintro n rest ⟨hn, hlen, -⟩
  refine NonZeroU32.safe_ofU32 fun hne => ?_
  have hto : (UInt32.ofNat n).toNat = n := by
    rw [UInt32.toNat_ofNat']
    exact Nat.mod_eq_of_lt (hn.trans_lt (by decide))
  refine h _ _ ?_ ?_
  · simpa [SubIdFits, hto] using hn
  · simpa [hto] using hlen

theorem length_subIdsWire_push (ids : List NonZeroU32) (id : NonZeroU32) :
    (subIdsWire (ids ++ [id])).length = (subIdsWire ids).length + (1 + (varLen id.1.toNat).length) := by
  simp [subIdsWire, Nat.add_comm]

namespace PublishProperties

def Acc.parts (acc : Acc) : List ℕ :=
  [encodedPropertySize acc.topicAlias, encodedPropertySize acc.correlationData,
    encodedPropertySize acc.messageExpiryInterval, encodedPropertySize acc.contentType,
    encodedPropertySize acc.isUtf8Payload, encodedPropertySize acc.responseTopic,
    (subIdsWire acc.subscriptionIds).length, UserProperties.encodedSize acc.userProps]

structure Acc.Good (acc : Acc) : Prop where
  correlationData : FitsOpt acc.correlationData
  contentType : FitsOpt acc.contentType
  responseTopic : FitsOpt acc.responseTopic
  subscriptionIds : ∀ id ∈ acc.subscriptionIds, SubIdFits id
  userProps : FitsAll acc.userProps

theorem safe_onProperty : Keeps onProperty Acc.parts Acc.Good := by
  intro _ _ _ _ h
  refine .ite ?_ (.ite ?_ (.ite ?_ (.ite ?_ (.ite ?_ (.ite ?_ (.ite ?_ (.ite ?_ .fail)))))))
  · exact h.readValue 4
  · exact h.readValue 2
  · exact h.readValue 3 fun hg _ ho => { hg with contentType := ho }
  · exact h.readValue 5 fun hg _ ho => { hg with responseTopic := ho }
  · exact h.readValue 1 fun hg _ ho => { hg with correlationData := ho }
  · refine .bind (safe_readSubId fun id rest hid hlen => .pure ?_)
    refine h.grow { h.1 with subscriptionIds := ?_ } 6 rfl rfl ?_
    · intro id' hmem
      rcases mem_append.1 hmem with hmem | hmem
      · exact h.1.subscriptionIds id' hmem
      · rwa [mem_singleton.1 hmem]
    · rw [length_subIdsWire_push]
      omega
  · exact h.readValue 0
  · exact h.push 7 fun hg _ ha => { hg with userProps := hg.userProps.push ha }

theorem sum_parts (p : PublishProperties) : (acc p).parts.sum = (propsWire p).length := by
  simp [propsWire, length_propWire, length_userWire, Acc.parts, acc]

def Acc.normal (acc : Acc) : Acc := { acc with
  isUtf8Payload := nonDefault (acc.isUtf8Payload.getD false) false }

theorem Acc.sum_parts_normal_le (acc : Acc) : acc.normal.parts.sum ≤ acc.parts.sum :=
  List.Forall₂.sum_le_sum (by simp [Acc.parts, Acc.normal, encodedPropertySize_nonDefault_le])

theorem safe_parse (src : Bytes) :
    Dec.Safe parse src fun p rest =>
      Fits p ∧ (withLen (propsWire p)).length + rest.length ≤ src.length := by
  refine safe_properties ⟨fitsOpt_none, fitsOpt_none, fitsOpt_none, nofun,
    fitsAll_nil⟩ rfl safe_onProperty fun acc' n rest hg hsize hn hlen => ?_
  suffices h : ∀ p : PublishProperties, acc p = acc'.normal →
      Fits p ∧ (withLen (propsWire p)).length + rest.length ≤ src.length from .pure (h _ rfl)
  intro p hacc
  have hg' : (acc p).Good := hacc ▸ ({ hg with } : acc'.normal.Good)
  refine ⟨⟨hg'.correlationData, hg'.contentType, hg'.responseTopic, hg'.subscriptionIds,
    hg'.userProps⟩, ?_⟩
  have hprops : (propsWire p).length ≤ n := by
    rw [← sum_parts, hacc]
    exact acc'.sum_parts_normal_le.trans hsize
  have := length_withLen_le hprops hn
  omega

end PublishProperties

namespace Publish

theorem safe_decode (flags : UInt8) (src : Bytes) :
    Dec.Safe (decode flags) src fun p _ =>
      (Packet.publish p).WellFormed ∧ (wire p).length ≤ src.length := by
  refine .bind ((V5.safe_decode src).mono fun topic rest ht => ?_)
  refine .bind (PrimEnum.safe_tryFrom fun qos _ => ?_)
  refine .bind ((Publish.safe_decodePacketId qos rest).mono fun packetId rest₁ hid => ?_)
  refine .bind ((PublishProperties.safe_parse rest₁).mono fun props rest₂ hp => ?_)
  change Dec.Safe (fun _ => _) _ _
  refine ⟨⟨⟨ht.1, hid.1, hp.1⟩, trivial, rfl⟩, ?_⟩
  have hlen := hid.2
  have hlen' := hp.2
  simp only [wire, headWire, length_append, Publish.props, Option.getD_some]
  omega

end Publish

/-! ## Acknowledgements -/

namespace AckProps

def Acc.diag (acc : Acc) : Diag := ⟨acc.userProps, acc.reasonString⟩

theorem Acc.length_wire_diag (acc : Acc) : acc.diag.wire.length = acc.parts.sum := by
  simp [Acc.parts, Acc.diag, Diag.wire, length_userWire, length_propWire]

theorem safe_decode (src : Bytes) :
    Dec.Safe decode src fun acc rest =>
      acc.diag.Fits ∧ (withLen acc.diag.wire).length + rest.length ≤ src.length := by
  rw [← bind_pure decode, decode, bind_assoc]
  refine safe_properties ⟨fitsOpt_none, fitsAll_nil⟩ rfl safe_onProperty
    fun acc n rest hg hsize hn hlen => .pure ⟨⟨hg.userProps, hg.reasonString⟩, ?_⟩
  have := length_withLen_le (acc.length_wire_diag.trans_le hsize) hn
  omega

end AckProps

theorem safe_atEnd {α : Type} {a : α} {e : DecodeError} {src : Bytes} {Q : α → Bytes → Prop}
    (h : src = [] → Q a src) :
    Dec.Safe (do let more ← Dec.hasRemaining; Dec.ensure (more = false) e; return a) src Q :=
  .bind (.hasRemaining (.bind (.ensure fun hend => .pure (h (by simpa using hend)))))

theorem safe_decodeAck {R A : Type} [PrimEnum R] (mk : NonZeroU16 → R → AckProps.Acc → A)
    (success : R) {src : Bytes} {Q : A → Bytes → Prop}
    (h : ∀ packetId reasonCode acc rest, acc.diag.Fits →
      (ackWire packetId (toU8 reasonCode) acc.diag).length ≤ max 4 src.length →
      Q (mk packetId reasonCode acc) rest) :
    Dec.Safe (decodeAck mk success) src Q := by
  have hshort (packetId : NonZeroU16) (reasonCode : R) (rest : Bytes) :
      Q (mk packetId reasonCode {}) rest :=
    h _ _ _ _ ⟨fitsAll_nil, fitsOpt_none⟩ (le_max_left 4 _)
  refine .bind ((safe_decode src).mono fun packetId rest hid => .bind (.hasRemaining ?_))
  split_ifs with hmore
  · refine .bind (.getU8 (by simpa using hmore) ?_)
    rintro reason rest₁ rfl
    refine .bind (PrimEnum.safe_tryFrom fun reasonCode _ => .bind (.hasRemaining ?_))
    refine .ite (.bind ((AckProps.safe_decode rest₁).mono fun acc rest₂ hacc => ?_))
      (.pure (hshort packetId reasonCode _))
    refine safe_atEnd fun _ => h _ _ _ _ hacc.1 (le_max_of_le_right ?_)
    have hlen := hacc.2
    have hlen' := hid.2
    simp only [ackWire, length_append, length_cons, length_nil] at hlen' ⊢
    omega
  · exact .pure (hshort packetId _ _)

theorem safe_decodeStatusAck {R A : Type} [PrimEnum R]
    (mk : NonZeroU16 → AckProps.Acc → List R → A) {src : Bytes} {Q : A → Bytes → Prop}
    (h : ∀ packetId acc status rest, acc.diag.Fits →
      (statusAckWire packetId acc.diag status).length ≤ src.length → Q (mk packetId acc status) rest) :
    Dec.Safe (decodeStatusAck mk) src Q := by
  refine .bind ((safe_decode src).mono fun packetId rest hid => ?_)
  refine .bind ((AckProps.safe_decode rest).mono fun acc rest₁ hacc => .bind ?_)
  have hstatus : Dec.Safe (decodeStatus : Dec DecodeError (List R)) rest₁
      fun status rest₂ => status.length = rest₁.length ∧ rest₂ = rest₁ :=
    Dec.Safe.mapM fun code => PrimEnum.safe_tryFrom fun _ _ => rfl
  refine hstatus.mono fun status _ hlen => .pure (h _ _ _ _ hacc.1 ?_)
  have hlen₁ := hacc.2
  have hlen₂ := hid.2
  simp only [statusAckWire, statusWire, length_append, length_map, hlen.1]
  omega

/-! ## SUBSCRIBE and UNSUBSCRIBE -/

theorem SubscriptionOptions.safe_decode (src : Bytes) :
    Dec.Safe SubscriptionOptions.decode src fun _ rest => 1 + rest.length = src.length := by
  refine .bind (.hasRemaining (.bind (.ensure fun hne => .bind (.getU8 (by simpa using hne) ?_))))
  rintro val rest rfl
  refine .bind (PrimEnum.safe_tryFrom fun qos _ => .bind (PrimEnum.safe_tryFrom fun handling _ => ?_))
  exact .pure (by rw [length_cons, Nat.add_comm])

theorem safe_collect {β : Type} {step : List β → Dec DecodeError (List β)} {P : β → Prop}
    {w : β → Bytes} (src : Bytes)
    (h : ∀ l src, Dec.Safe (step l) src fun l' rest =>
      ∃ b, l' = l ++ [b] ∧ P b ∧ (w b).length + rest.length ≤ src.length) :
    Dec.Safe (Dec.whileRemaining step []) src fun l rest =>
      (∀ b ∈ l, P b) ∧ (l.flatMap w).length + rest.length ≤ src.length := by
  refine Dec.Safe.whileRemaining (fun l src' _ hl => (h l src').mono ?_) ⟨nofun, ?_⟩
  · rintro _ rest ⟨b, rfl, hb, hlen⟩
    refine ⟨fun b' hb' => ?_, ?_⟩
    · rcases mem_append.1 hb' with hb' | hb'
      · exact hl.1 b' hb'
      · rwa [mem_singleton.1 hb']
    · have := hl.2
      simp only [flatMap_append, flatMap_singleton, length_append]
      omega
  · simp

namespace Subscribe

def Acc.parts (acc : Acc) : List ℕ :=
  [(subIdsWire acc.subId.toList).length, UserProperties.encodedSize acc.userProperties]

structure Acc.Good (acc : Acc) : Prop where
  subId : ∀ id ∈ acc.subId, SubIdFits id
  userProperties : FitsAll acc.userProperties

theorem safe_onProperty : Keeps onProperty Acc.parts Acc.Good := by
  intro _ _ _ _ h
  refine .ite ?_ (.ite ?_ .fail)
  · refine .bind (.ensure fun _ => .bind (safe_readSubId fun id rest hid hlen => .pure ?_))
    refine h.grow { h.1 with subId := ?_ } 0 rfl rfl ?_
    · rintro _ ⟨⟩
      exact hid
    · have := length_subIdsWire_push [] id
      simp only [nil_append] at this
      simp only [Option.toList_some, this]
      simp only [subIdsWire, flatMap_nil, length_nil]
      omega
  · exact h.push 1 fun hg _ ha => { hg with userProperties := hg.userProperties.push ha }

theorem safe_readFilter (l : List (String × SubscriptionOptions)) (src : Bytes) :
    Dec.Safe (readFilter l) src fun l' rest => ∃ f, l' = l ++ [f] ∧ Codec.Fits f.1 ∧
      (Codec.wire f.1 ++ [f.2.toByte]).length + rest.length ≤ src.length := by
  refine .bind ((V5.safe_decode src).mono fun topic rest ht => ?_)
  refine .bind ((SubscriptionOptions.safe_decode rest).mono fun opts rest₁ ho => ?_)
  refine .pure ⟨(topic, opts), rfl, ht.1, ?_⟩
  have := ht.2
  simp only [length_append, length_cons, length_nil]
  omega

theorem safe_decode (src : Bytes) :
    Dec.Safe decode src fun s _ =>
      s.Fits ∧ s.topicFilters ≠ [] ∧ s.wire.length ≤ src.length := by
  refine .bind ((V5.safe_decode src).mono fun packetId rest hid => ?_)
  refine safe_properties ⟨nofun, fitsAll_nil⟩ rfl safe_onProperty
    fun acc n rest₁ hg hsize hn hlen => ?_
  refine .bind ((safe_collect rest₁ safe_readFilter).mono fun filters rest₂ hf => ?_)
  refine .bind (.ensure fun hne => .pure ⟨⟨hg.subId, hg.userProperties, hf.1⟩, hne, ?_⟩)
  have hprops : (subIdsWire acc.subId.toList ++ userWire acc.userProperties).length ≤ n := by
    simpa [Acc.parts, length_userWire] using hsize
  have hwith := length_withLen_le hprops hn
  have hid' := hid.2
  have hf' := hf.2
  simp only [wire, propsWire, filtersWire, length_append] at hwith hf' ⊢
  omega

end Subscribe

namespace Unsubscribe

theorem safe_onProperty : Keeps onProperty (fun l => [UserProperties.encodedSize l]) FitsAll := by
  intro _ _ _ _ h
  refine .ite ?_ .fail
  exact h.push 0 fun hg _ ha => hg.push ha

theorem safe_readFilter (l : List String) (src : Bytes) :
    Dec.Safe (readFilter l) src fun l' rest => ∃ f, l' = l ++ [f] ∧ Codec.Fits f ∧
      (Codec.wire f).length + rest.length ≤ src.length :=
  .bind ((V5.safe_decode src).mono fun topic _ ht => .pure ⟨topic, rfl, ht.1, ht.2.le⟩)

theorem safe_decode (src : Bytes) :
    Dec.Safe decode src fun u _ =>
      u.Fits ∧ u.topicFilters ≠ [] ∧ u.wire.length ≤ src.length := by
  refine .bind ((V5.safe_decode src).mono fun packetId rest hid => ?_)
  refine safe_properties fitsAll_nil rfl safe_onProperty fun acc n rest₁ hg hsize hn hlen => ?_
  refine .bind ((safe_collect rest₁ safe_readFilter).mono fun filters rest₂ hf => ?_)
  refine .bind (.ensure fun hne => .pure ⟨⟨hg, hf.1⟩, hne, ?_⟩)
  have hprops : (userWire acc).length ≤ n := by
    simpa [length_userWire] using hsize
  have hwith := length_withLen_le hprops hn
  have hid' := hid.2
  have hf' := hf.2
  simp only [wire, filtersWire, length_append] at hwith hf' ⊢
  omega

end Unsubscribe

/-! ## DISCONNECT and AUTH -/

theorem safe_reasoned {R A : Type} [PrimEnum R] {tail : R → Dec DecodeError A} {short : R → A}
    {success : A} {src : Bytes} {Q : A → Prop} (hshort : ∀ reasonCode, Q (short reasonCode))
    (hsuccess : Q success)
    (htail : ∀ reasonCode rest, src.length = rest.length + 1 →
      Dec.Safe (tail reasonCode) rest fun a _ => Q a) :
    Dec.Safe (do
      if ← Dec.hasRemaining then
        let reasonByte ← Dec.getU8
        let reasonCode ← PrimEnum.tryFrom reasonByte
        if ← Dec.hasRemaining then tail reasonCode
        else return short reasonCode
      else return success) src fun a _ => Q a := by
  refine .bind (.hasRemaining ?_)
  split_ifs with hmore
  · refine .bind (.getU8 (by simpa using hmore) ?_)
    rintro reason rest rfl
    refine .bind (PrimEnum.safe_tryFrom fun reasonCode _ => .bind (.hasRemaining ?_))
    exact .ite (htail reasonCode rest rfl) (.pure (hshort reasonCode))
  · exact .pure hsuccess

namespace Disconnect

def Acc.parts (acc : Acc) : List ℕ :=
  [encodedPropertySize acc.sessionExpSecs, encodedPropertySize acc.serverReference,
    UserProperties.encodedSize acc.userProperties, encodedPropertySize acc.reasonString]

structure Acc.Good (acc : Acc) : Prop where
  serverReference : FitsOpt acc.serverReference
  reasonString : FitsOpt acc.reasonString
  userProperties : FitsAll acc.userProperties

theorem safe_onProperty : Keeps onProperty Acc.parts Acc.Good := by
  intro _ _ _ _ h
  refine .ite ?_ (.ite ?_ (.ite ?_ (.ite ?_ .fail)))
  · exact h.readValue 0
  · exact h.readValue 3 fun hg _ ho => { hg with reasonString := ho }
  · exact h.push 2 fun hg _ ha => { hg with userProperties := hg.userProperties.push ha }
  · exact h.readValue 1 fun hg _ ho => { hg with serverReference := ho }

theorem safe_decodeTail (reasonCode : DisconnectReasonCode) (src : Bytes) :
    Dec.Safe (decodeTail reasonCode) src fun d _ => d.Fits ∧ d.wire.length ≤ src.length + 1 := by
  refine safe_properties ⟨fitsOpt_none, fitsOpt_none, fitsAll_nil⟩ rfl safe_onProperty
    fun acc n rest hg hsize hn hlen => safe_atEnd fun _ => ?_
  suffices h : ∀ d : Disconnect, (d.fixedWire ++ d.diag.wire).length = acc.parts.sum →
      d.wire.length ≤ src.length + 1 from
    ⟨⟨hg.serverReference, hg.userProperties, hg.reasonString⟩, h _ (by
      simp [Acc.parts, fixedWire, diag, Diag.wire, length_propWire, length_userWire])⟩
  intro d hd
  have := length_withLen_le (hd.trans_le hsize) hn
  simp only [wire, length_append, length_cons, length_nil] at this ⊢
  omega

theorem safe_decode (src : Bytes) :
    Dec.Safe decode src fun d _ => d.Fits ∧ d.wire.length ≤ max 4 src.length := by
  have hshort (reasonCode : DisconnectReasonCode) :
      ({ reasonCode } : Disconnect).Fits ∧
        ({ reasonCode } : Disconnect).wire.length ≤ max 4 src.length :=
    ⟨⟨fitsOpt_none, fitsAll_nil, fitsOpt_none⟩, le_max_of_le_left (show 2 ≤ 4 by decide)⟩
  refine safe_reasoned hshort (hshort _) fun reasonCode rest hlen => ?_
  exact (safe_decodeTail reasonCode rest).mono fun d _ hd =>
    ⟨hd.1, le_max_of_le_right (hlen ▸ hd.2)⟩

end Disconnect

namespace Auth

def Acc.parts (acc : Acc) : List ℕ :=
  [encodedPropertySize acc.authMethod, encodedPropertySize acc.authData,
    UserProperties.encodedSize acc.userProperties, encodedPropertySize acc.reasonString]

structure Acc.Good (acc : Acc) : Prop where
  authMethod : FitsOpt acc.authMethod
  authData : FitsOpt acc.authData
  reasonString : FitsOpt acc.reasonString
  userProperties : FitsAll acc.userProperties

theorem safe_onProperty : Keeps onProperty Acc.parts Acc.Good := by
  intro _ _ _ _ h
  refine .ite ?_ (.ite ?_ (.ite ?_ (.ite ?_ .fail)))
  · exact h.readValue 0 fun hg _ ho => { hg with authMethod := ho }
  · exact h.readValue 1 fun hg _ ho => { hg with authData := ho }
  · exact h.readValue 3 fun hg _ ho => { hg with reasonString := ho }
  · exact h.push 2 fun hg _ ha => { hg with userProperties := hg.userProperties.push ha }

theorem safe_decodeTail (reasonCode : AuthReasonCode) (src : Bytes) :
    Dec.Safe (decodeTail reasonCode) src fun a _ => a.Fits ∧ a.wire.length ≤ src.length + 1 := by
  refine safe_properties ⟨fitsOpt_none, fitsOpt_none, fitsOpt_none, fitsAll_nil⟩ rfl safe_onProperty
    fun acc n rest hg hsize hn hlen => safe_atEnd fun _ => ?_
  suffices h : ∀ a : Auth, (a.fixedWire ++ a.diag.wire).length = acc.parts.sum →
      a.wire.length ≤ src.length + 1 from
    ⟨⟨hg.authMethod, hg.authData, hg.userProperties, hg.reasonString⟩, h _ (by
      simp [Acc.parts, fixedWire, diag, Diag.wire, length_propWire, length_userWire])⟩
  intro a ha
  have := length_withLen_le (ha.trans_le hsize) hn
  simp only [wire, length_append, length_cons, length_nil] at this ⊢
  omega

theorem safe_decode (src : Bytes) :
    Dec.Safe decode src fun a _ => a.Fits ∧ a.wire.length ≤ max 4 src.length := by
  have hshort (reasonCode : AuthReasonCode) :
      ({ reasonCode } : Auth).Fits ∧ ({ reasonCode } : Auth).wire.length ≤ max 4 src.length :=
    ⟨⟨fitsOpt_none, fitsOpt_none, fitsAll_nil, fitsOpt_none⟩,
      le_max_of_le_left (show 2 ≤ 4 by decide)⟩
  refine safe_reasoned hshort (hshort _) fun reasonCode rest hlen => ?_
  exact (safe_decodeTail reasonCode rest).mono fun a _ ha =>
    ⟨ha.1, le_max_of_le_right (hlen ▸ ha.2)⟩

end Auth

/-! ## Packets -/

/-- The decoder never panics, and what it returns is well formed and not longer than what was read,
apart from the shortest acknowledgements. -/
theorem safe_decodePacket (firstByte : UInt8) (src : Bytes) :
    Dec.Safe (decodePacket firstByte) src fun p _ =>
      p.WellFormed ∧ p.wire.length ≤ max 4 src.length := by
  have hack {R A : Type} [PrimEnum R] {mk : NonZeroU16 → R → AckProps.Acc → A} {success : R}
      {f : A → Packet} (h : ∀ packetId reasonCode acc, acc.diag.Fits →
        (f (mk packetId reasonCode acc)).WellFormed ∧ (f (mk packetId reasonCode acc)).wire =
          ackWire packetId (toU8 reasonCode) acc.diag) :
      Dec.Safe (do return f (← decodeAck mk success)) src fun p _ =>
        p.WellFormed ∧ p.wire.length ≤ max 4 src.length :=
    .bind (safe_decodeAck mk success fun packetId reasonCode acc _ hfits hlen =>
      .pure ⟨(h packetId reasonCode acc hfits).1, by rwa [(h packetId reasonCode acc hfits).2]⟩)
  have hstatus {R A : Type} [PrimEnum R] {mk : NonZeroU16 → AckProps.Acc → List R → A}
      {f : A → Packet} (h : ∀ packetId acc status, acc.diag.Fits →
        (f (mk packetId acc status)).WellFormed ∧ (f (mk packetId acc status)).wire =
          statusAckWire packetId acc.diag status) :
      Dec.Safe (do return f (← decodeStatusAck mk)) src fun p _ =>
        p.WellFormed ∧ p.wire.length ≤ max 4 src.length :=
    .bind (safe_decodeStatusAck mk fun packetId acc status _ hfits hlen =>
      .pure ⟨(h packetId acc status hfits).1, by
        rw [(h packetId acc status hfits).2]
        exact le_max_of_le_right hlen⟩)
  refine .ite ?_ (.ite ?_ (.ite ?_ (.ite ?_ (.ite ?_ (.ite ?_ (.ite ?_ (.ite ?_ (.ite ?_ (.ite ?_
    (.ite ?_ (.ite ?_ (.ite ?_ (.ite ?_ (.ite ?_ .fail))))))))))))))
  · exact .bind ((Publish.safe_decode _ src).mono fun p _ hp => .pure ⟨hp.1, le_max_of_le_right hp.2⟩)
  · exact hack fun _ _ _ h => ⟨⟨h, trivial, rfl⟩, rfl⟩
  · exact .pure ⟨⟨trivial, trivial, rfl⟩, Nat.zero_le _⟩
  · exact .pure ⟨⟨trivial, trivial, rfl⟩, Nat.zero_le _⟩
  · exact .bind ((Subscribe.safe_decode src).mono fun s _ hs =>
      .pure ⟨⟨hs.1, hs.2.1, rfl⟩, le_max_of_le_right hs.2.2⟩)
  · exact hstatus fun _ _ _ h => ⟨⟨h, trivial, rfl⟩, rfl⟩
  · exact .bind ((Unsubscribe.safe_decode src).mono fun u _ hu =>
      .pure ⟨⟨hu.1, hu.2.1, rfl⟩, le_max_of_le_right hu.2.2⟩)
  · exact hstatus fun _ _ _ h => ⟨⟨h, trivial, rfl⟩, rfl⟩
  · refine .bind ((Connect.safe_decode src).mono fun c rest hc => .pure ⟨hc.1, le_max_of_le_right ?_⟩)
    have := hc.2
    change c.wire.length ≤ src.length
    omega
  · refine .bind ((ConnectAck.safe_decode src).mono fun a rest ha =>
      .pure ⟨⟨ha.1, trivial, rfl⟩, le_max_of_le_right ?_⟩)
    have := ha.2
    change a.wire.length ≤ src.length
    omega
  · exact .bind ((Disconnect.safe_decode src).mono fun d _ hd =>
      .pure ⟨⟨hd.1, trivial, rfl⟩, hd.2⟩)
  · exact .bind ((Auth.safe_decode src).mono fun a _ ha => .pure ⟨⟨ha.1, trivial, rfl⟩, ha.2⟩)
  · exact hack fun _ _ _ h => ⟨⟨h, trivial, rfl⟩, rfl⟩
  · exact hack fun _ _ _ h => ⟨⟨h, trivial, rfl⟩, rfl⟩
  · exact hack fun _ _ _ h => ⟨⟨h, trivial, rfl⟩, rfl⟩

end FerroMq.Codec.V5
