import FerroMq.Codec.V5.Format

/-!
# Reading packets back

The decoder turns the content of a packet that fits back into the packet.  A property loop is followed field by
field: each lemma takes the record of the local variables with one more field set.
-/

namespace FerroMq.Codec.V5

open Lib List

/-! ## Property loops -/

section Properties

variable {Acc α β : Type} {onProperty : UInt8 → Acc → Dec DecodeError Acc} {id : UInt8}

/-- The property loop takes one record to another by reading these bytes. -/
abbrev PropSteps (onProperty : UInt8 → Acc → Dec DecodeError Acc) : Acc → Bytes → Acc → Prop :=
  Dec.Steps fun acc => do onProperty (← Dec.getU8) acc

variable {bs : Bytes} {init acc : Acc} {k : Acc → Dec DecodeError β}

theorem PropSteps.property {acc' : Acc}
    (h : Dec.Reads (onProperty id acc) bs acc') : PropSteps onProperty acc (id :: bs) acc' :=
  Dec.Steps.single (cons_ne_nil id bs) ((Dec.Reads.getU8 id).bind h)

theorem PropSteps.start (onProperty : UInt8 → Acc → Dec DecodeError Acc) (init : Acc) :
    PropSteps onProperty init [] init := .nil init

theorem PropSteps.option [WireFormat α]
    (hs : PropSteps onProperty init bs acc) (id : UInt8) (set : Acc → Option α → Acc)
    (o : Option α) (ho : FitsOpt o) (h₀ : set acc none = acc)
    (h : onProperty id acc = do return set acc (← readValue none)) :
    PropSteps onProperty init (bs ++ propWire id o) (set acc o) := by
  refine hs.trans ?_
  cases o with
  | none =>
    rw [h₀]
    exact .nil acc
  | some a =>
    refine PropSteps.property ?_
    rw [h]
    exact (reads_readValue (ho a rfl)).bind_last (.pure _)

theorem PropSteps.list (hs : PropSteps onProperty init bs acc)
    (id : UInt8) (set : Acc → List β → Acc) {read : Dec DecodeError β} {w : β → Bytes} (l : List β)
    (hl : ∀ b ∈ l, Dec.Reads read (w b) b) (h₀ : set acc [] = acc)
    (h : ∀ done, onProperty id (set acc done) = do return set acc (done ++ [← read])) :
    PropSteps onProperty init (bs ++ l.flatMap fun b => id :: w b) (set acc l) := by
  refine hs.trans ?_
  have hstep (done : List β) (b : β) (hb : b ∈ l) :
      Dec.Reads (do onProperty (← Dec.getU8) (set acc done)) (id :: w b) (set acc (done ++ [b])) := by
    refine (Dec.Reads.getU8 id).bind ?_
    rw [h]
    exact (hl b hb).bind_last (.pure _)
  simpa [h₀] using Dec.Steps.list (set acc) (fun b => cons_ne_nil id (w b)) hstep []

theorem PropSteps.user (hs : PropSteps onProperty init bs acc)
    (set : Acc → UserProperties → Acc) (props : UserProperties) (hp : FitsAll props)
    (h₀ : set acc [] = acc)
    (h : ∀ done, onProperty PropertyType.user (set acc done) = do return set acc (done ++ [← decode])) :
    PropSteps onProperty init (bs ++ userWire props) (set acc props) :=
  hs.list PropertyType.user set props (fun p hp' => WireFormat.reads p (hp p hp')) h₀ h

/-- Reading a property block and going on with the record it leaves. -/
abbrev propertiesThen (onProperty : UInt8 → Acc → Dec DecodeError Acc) (init : Acc)
    (k : Acc → Dec DecodeError β) : Dec DecodeError β := do
  let propSrc ← takeProperties
  let acc ← readProperties onProperty init propSrc
  k acc

variable {props cs : Bytes} {b : β} {e : DecodeError} (hlen : props.length ≤ maxPacketSize)
  (h : PropSteps onProperty init props acc)

include hlen h

theorem reads_properties (hk : Dec.Reads (k acc) cs b) :
    Dec.Reads (propertiesThen onProperty init k) (withLen props ++ cs) b :=
  (reads_takeProperties hlen).bind (.bind_nil (.within (Dec.whileRemaining_of_steps h)) hk)

theorem returns_properties (hk : Dec.Returns (k acc) cs b) :
    Dec.Returns (propertiesThen onProperty init k) (withLen props ++ cs) b :=
  .bind (reads_takeProperties hlen) (.bind_nil (.within (Dec.whileRemaining_of_steps h)) hk)

theorem rejects_properties (hk : Dec.Rejects (k acc) cs e) :
    Dec.Rejects (propertiesThen onProperty init k) (withLen props ++ cs) e :=
  .bind (reads_takeProperties hlen) (.bind_nil (.within (Dec.whileRemaining_of_steps h)) hk)

theorem returns_lastProperties (hk : Dec.Returns (k acc) [] b) :
    Dec.Returns (propertiesThen onProperty init k) (withLen props) b := by
  simpa using returns_properties hlen h hk

end Properties

theorem reads_readSubId {id : NonZeroU32} (h : SubIdFits id) :
    Dec.Reads readSubId (varLen id.1.toNat) id := by
  refine (reads_decodeVariableLengthCursor h).bind_last ?_
  rw [UInt32.ofNat_toNat]
  exact id.reads_ofU32

/-! ## Acknowledgement properties -/

namespace AckProps

theorem steps {d : Diag} (h : d.Fits) :
    PropSteps onProperty {} d.wire
      { userProps := d.userProperties, reasonString := d.reasonString } :=
  (PropSteps.start onProperty {}).user (fun a l => { a with userProps := l }) _ h.1 rfl (fun _ => rfl)
    |>.option PropertyType.reasonString (fun a o => { a with reasonString := o }) _ h.2 rfl rfl

end AckProps

/-! ## CONNECT -/

namespace LastWill

theorem steps {w : LastWill} (h : w.Fits) : PropSteps onProperty {} w.propsWire w.acc :=
  (PropSteps.start onProperty {}).option PropertyType.willDelayInt
      (fun a o => { a with willDelayIntervalSec := o }) w.willDelayIntervalSec (fun _ _ => trivial) rfl rfl
    |>.option PropertyType.utf8Payload (fun a o => { a with isUtf8Payload := o }) w.isUtf8Payload
      (fun _ _ => trivial) rfl rfl
    |>.option PropertyType.msgExpiryInt (fun a o => { a with messageExpiryInterval := o })
      w.messageExpiryInterval (fun _ _ => trivial) rfl rfl
    |>.option PropertyType.contentType (fun a o => { a with contentType := o })
      w.contentType h.contentType rfl rfl
    |>.option PropertyType.respTopic (fun a o => { a with responseTopic := o })
      w.responseTopic h.responseTopic rfl rfl
    |>.option PropertyType.corrData (fun a o => { a with correlationData := o })
      w.correlationData h.correlationData rfl rfl
    |>.user (fun a l => { a with userProperties := l }) w.userProperties h.userProperties rfl fun _ => rfl

theorem reads_decode {w : LastWill} (h : w.Fits) (hlen : w.propsWire.length ≤ maxPacketSize)
    {flags : UInt8} (hretain : hasFlag flags ConnectFlags.willRetain = w.retain)
    (hqos : (flags &&& ConnectFlags.willQos) >>> 3 = toU8 w.qos) :
    Dec.Reads (decode flags) w.wire w := by
  rw [wire, append_assoc]
  refine reads_properties hlen (steps h) ((WireFormat.reads w.topic h.topic).bind
    ((WireFormat.reads w.message h.message).bind_last ?_))
  rw [hqos, hretain]
  exact .bind_nil (PrimEnum.reads_tryFrom w.qos) (.pure w)

end LastWill

namespace Connect

variable {c : Connect}

theorem steps (h : c.Fits) : PropSteps onProperty {} c.propsWire c.acc :=
  (PropSteps.start onProperty {}).option PropertyType.sessExpiryInt
      (fun a o => { a with sessionExpiryIntervalSecs := o }) (nonDefault c.sessionExpiryIntervalSecs 0)
    (fun _ _ => trivial) rfl rfl
    |>.option PropertyType.authMethod (fun a o => { a with authMethod := o }) c.authMethod h.authMethod
      rfl rfl
    |>.option PropertyType.authData (fun a o => { a with authData := o }) c.authData h.authData rfl rfl
    |>.option PropertyType.reqProbInfo (fun a o => { a with requestProblemInfo := o })
      (nonDefault c.requestProblemInfo true) (fun _ _ => trivial) rfl rfl
    |>.option PropertyType.reqRespInfo (fun a o => { a with requestResponseInfo := o })
      (nonDefault c.requestResponseInfo false) (fun _ _ => trivial) rfl rfl
    |>.option PropertyType.receiveMax (fun a o => { a with receiveMax := o }) c.receiveMax
      (fun _ _ => trivial) rfl rfl
    |>.option PropertyType.maxPacketSize (fun a o => { a with maxPacketSize := o }) c.maxPacketSize
      (fun _ _ => trivial) rfl rfl
    |>.option PropertyType.topicAliasMax (fun a o => { a with topicAliasMax := o })
      (nonDefault c.topicAliasMax 0) (fun _ _ => trivial) rfl rfl
    |>.user (fun a l => { a with userProperties := l }) c.userProperties h.userProperties rfl fun _ => rfl

theorem record_flags (c : Connect) : ConnectFlags.Record c.flags c.username.isSome c.password.isSome
    (c.lastWill.map fun w => (w.retain, w.qos)) c.cleanStart :=
  connectFlags_record ..

theorem reads_decodeHead (c : Connect) :
    Dec.Reads decodeHead c.headWire (c.flags, c.keepAlive) := by
  have hname : sliceWire (utf8 "MQTT") = be16 4 ++ utf8 "MQTT" := by decide
  rw [headWire, hname, append_assoc, append_assoc]
  refine .need le_rfl ((reads_getU16 4).bind ?_)
  refine .bind (.splitTo (by decide)) (.bind_nil (.ensure ⟨rfl, rfl⟩ _) ?_)
  change Dec.Reads _ ([5] ++ ([c.flags] ++ be16 c.keepAlive)) _
  refine .bind (.getU8 5) (.bind_nil (.ensure rfl _) ?_)
  refine .bind (.getU8 c.flags) (.bind_nil (.ensure c.record_flags.reserved _) ?_)
  exact (reads_getU16 c.keepAlive).bind_last (.pure _)

theorem reads_decode (h : c.Fits) (hr : c.clientId ≠ "" ∨ c.cleanStart = true)
    (hlen : c.propsWire.length ≤ Codec.maxPacketSize)
    (hwill : ∀ w ∈ c.lastWill, (LastWill.propsWire w).length ≤ Codec.maxPacketSize) :
    Dec.Reads decode c.wire { c with cert := none } := by
  have hf := c.record_flags
  have hwill' : ∀ w ∈ c.lastWill, Dec.Reads (LastWill.decode c.flags) w.wire w := fun w hmem =>
    have hmem' := Option.mem_map_of_mem (fun w : LastWill => (w.retain, w.qos)) hmem
    LastWill.reads_decode (h.lastWill w hmem) (hwill w hmem) (hf.willRetain _ hmem')
      (hf.willQos _ hmem')
  simp only [wire, append_assoc]
  refine c.reads_decodeHead.bind (reads_properties hlen (steps h) ?_)
  refine (WireFormat.reads c.clientId h.clientId).bind (.bind_nil (.ensure (by rwa [hf.cleanStart]) _) ?_)
  refine (reads_decodeIf (hf.will.trans Option.isSome_map) hwill').bind ?_
  refine (reads_decodeIf hf.username fun a ha => WireFormat.reads a (h.username a ha)).bind ?_
  refine (reads_decodeIf hf.password fun a ha => WireFormat.reads a (h.password a ha)).bind_last ?_
  simp only [acc, getD_nonDefault, hf.cleanStart]
  exact .pure _

theorem rejects_decode (h : c.Fits) (hr : ¬ (c.clientId ≠ "" ∨ c.cleanStart = true))
    (hlen : c.propsWire.length ≤ Codec.maxPacketSize) : Dec.Rejects decode c.wire .invalidClientId := by
  simp only [wire, append_assoc]
  refine .bind c.reads_decodeHead (rejects_properties hlen (steps h) ?_)
  refine .bind (WireFormat.reads c.clientId h.clientId) (.first (.ensure ?_ _ _) _)
  rwa [c.record_flags.cleanStart]

end Connect

/-! ## CONNACK -/

namespace ConnectAck

theorem reads_readMaxQos (q : QoS) : Dec.Reads (readMaxQos none) [toU8 q] (some q) :=
  .bind_nil (.ensure rfl _) (.needMore
    ((Dec.Reads.getU8 (toU8 q)).bind_last (.bind_nil (PrimEnum.reads_tryFrom q) (.pure _))))

theorem steps_maxQos {init acc : Acc} {bs : Bytes} (hs : PropSteps onProperty init bs acc)
    (a : ConnectAck) (h : acc.maxQos = none) :
    PropSteps onProperty init (bs ++ a.maxQosWire)
      { acc with maxQos := nonDefault a.maxQos .exactlyOnce } := by
  have hstep (q : QoS) : PropSteps onProperty acc [PropertyType.maxQos, toU8 q]
      { acc with maxQos := some q } := by
    refine .property (Dec.Reads.bind_last ?_ (.pure _))
    rw [h]
    exact reads_readMaxQos q
  refine hs.trans ?_
  unfold maxQosWire nonDefault
  rcases hq : a.maxQos with _ | _ | _
  · exact hstep .atMostOnce
  · exact hstep .atLeastOnce
  · obtain ⟨⟩ := acc
    cases h
    exact .nil _

theorem steps {a : ConnectAck} (h : a.Fits) :
    PropSteps onProperty {} (a.fixedWire ++ a.diag.wire) a.acc := by
  rw [Diag.wire, ← append_assoc]
  have hhead : PropSteps onProperty {} _ _ :=
    (PropSteps.start onProperty {}).option PropertyType.sessExpiryInt
        (fun a o => { a with sessionExpiryIntervalSecs := o })
        a.sessionExpiryIntervalSecs (fun _ _ => trivial) rfl rfl
      |>.option PropertyType.receiveMax (fun a o => { a with receiveMax := o })
        (nonDefault a.receiveMax receiveMaxDefault) (fun _ _ => trivial) rfl rfl
  exact (steps_maxQos hhead a rfl)
    |>.option PropertyType.retainAvail (fun a o => { a with retainAvailable := o })
      (nonDefault a.retainAvailable true) (fun _ _ => trivial) rfl rfl
    |>.option PropertyType.maxPacketSize (fun a o => { a with maxPacketSize := o }) a.maxPacketSize
      (fun _ _ => trivial) rfl rfl
    |>.option PropertyType.assndClientId (fun a o => { a with assignedClientId := o })
      a.assignedClientId h.assignedClientId rfl rfl
    |>.option PropertyType.topicAliasMax (fun a o => { a with topicAliasMax := o })
      (nonDefault a.topicAliasMax 0) (fun _ _ => trivial) rfl rfl
    |>.option PropertyType.wildcardSubAvail (fun a o => { a with wildcardSubAvail := o })
      (nonDefault a.wildcardSubscriptionAvailable true) (fun _ _ => trivial) rfl rfl
    |>.option PropertyType.subIdsAvail (fun a o => { a with subIdsAvail := o })
      (nonDefault a.subscriptionIdentifiersAvailable true) (fun _ _ => trivial) rfl rfl
    |>.option PropertyType.sharedSubAvail (fun a o => { a with sharedSubAvail := o })
      (nonDefault a.sharedSubscriptionAvailable true) (fun _ _ => trivial) rfl rfl
    |>.option PropertyType.serverKa (fun a o => { a with serverKaSec := o }) a.serverKeepaliveSec
      (fun _ _ => trivial) rfl rfl
    |>.option PropertyType.respInfo (fun a o => { a with responseInfo := o })
      a.responseInfo h.responseInfo rfl rfl
    |>.option PropertyType.serverRef (fun a o => { a with serverReference := o })
      a.serverReference h.serverReference rfl rfl
    |>.option PropertyType.authMethod (fun a o => { a with authMethod := o }) a.authMethod h.authMethod
      rfl rfl
    |>.option PropertyType.authData (fun a o => { a with authData := o }) a.authData h.authData rfl rfl
    |>.user (fun a l => { a with userProperties := l }) a.userProperties h.diag.1 rfl (fun _ => rfl)
    |>.option PropertyType.reasonString (fun a o => { a with reasonString := o })
      a.reasonString h.diag.2 rfl rfl

theorem returns_decode {a : ConnectAck} (h : a.Fits)
    (hlen : (a.fixedWire ++ a.diag.wire).length ≤ Codec.maxPacketSize) :
    Dec.Returns decode a.wire a := by
  have hflag : a.sessionPresent.toUInt8 &&& 0b11111110 = 0 := by cases a.sessionPresent <;> rfl
  have hpresent : hasFlag a.sessionPresent.toUInt8 0b00000001 = a.sessionPresent := by
    cases a.sessionPresent <;> rfl
  refine .need (by simp [wire]) ?_
  change Dec.Returns _ ([a.sessionPresent.toUInt8] ++
    ([toU8 a.reasonCode] ++ withLen (a.fixedWire ++ a.diag.wire))) _
  refine .bind (.getU8 _) (.bind_nil (.ensure hflag _) ?_)
  refine .bind (.getU8 (toU8 a.reasonCode)) (.bind_nil (PrimEnum.reads_tryFrom a.reasonCode) ?_)
  refine returns_lastProperties hlen (steps h) ?_
  simp only [acc, getD_nonDefault, hpresent]
  exact .atEnd

end ConnectAck

/-! ## PUBLISH -/

namespace PublishProperties

theorem steps {p : PublishProperties} (h : Fits p) :
    PropSteps onProperty {} (propsWire p) (acc p) :=
  (PropSteps.start onProperty {}).option PropertyType.topicAlias
      (fun a o => { a with topicAlias := o }) p.topicAlias (fun _ _ => trivial) rfl rfl
    |>.option PropertyType.corrData (fun a o => { a with correlationData := o })
      p.correlationData h.correlationData rfl rfl
    |>.option PropertyType.msgExpiryInt (fun a o => { a with messageExpiryInterval := o })
      p.messageExpiryInterval (fun _ _ => trivial) rfl rfl
    |>.option PropertyType.contentType (fun a o => { a with contentType := o })
      p.contentType h.contentType rfl rfl
    |>.option PropertyType.utf8Payload (fun a o => { a with isUtf8Payload := o })
      (nonDefault p.isUtf8Payload false) (fun _ _ => trivial) rfl rfl
    |>.option PropertyType.respTopic (fun a o => { a with responseTopic := o })
      p.responseTopic h.responseTopic rfl rfl
    |>.list PropertyType.subId (fun a l => { a with subscriptionIds := l }) p.subscriptionIds
      (fun id hid => reads_readSubId (h.subscriptionIds id hid)) rfl (fun _ => rfl)
    |>.user (fun a l => { a with userProps := l }) p.userProperties h.userProperties rfl fun _ => rfl

theorem reads_parse {p : PublishProperties} (h : Fits p)
    (hlen : (propsWire p).length ≤ maxPacketSize) :
    Dec.Reads parse (withLen (propsWire p)) p := by
  rw [← append_nil (withLen _)]
  refine reads_properties hlen (steps h) ?_
  simp only [acc, getD_nonDefault]
  exact .pure p

end PublishProperties

namespace Publish

theorem returns_decode {p : Publish} (h : Fits p)
    (hlen : (PublishProperties.propsWire (props p)).length ≤ maxPacketSize) :
    Dec.Returns (decode ((Packet.publish p).firstByte &&& 0b00001111)) (wire p)
      { p with properties := some (props p) } := by
  obtain ⟨-, hqos, hdup, hretain⟩ := publishFlags_spec p.qos p.dup p.retain
  rw [wire, headWire, append_assoc, append_assoc]
  refine .bind (WireFormat.reads p.topic h.topic) ?_
  refine .bind_nil (a := p.qos) ?_ (.bind (Publish.reads_decodePacketId h.packetId) ?_)
  · rw [Packet.firstByte, hqos]
    exact PrimEnum.reads_tryFrom p.qos
  refine .bind (PublishProperties.reads_parse h.properties hlen) (returns_takeRest ?_)
  rw [Packet.firstByte, hdup, hretain]
  exact (Dec.Reads.pure _).returns

end Publish

/-! ## Acknowledgements -/

theorem withLen_ne_nil (props : Bytes) : withLen props ≠ [] := by
  simp [withLen, varLen_ne_nil]

variable {d : Diag}

theorem AckProps.reads_decode (h : d.Fits) (hlen : d.wire.length ≤ maxPacketSize) :
    Dec.Reads AckProps.decode (withLen d.wire)
      { userProps := d.userProperties, reasonString := d.reasonString } :=
  (reads_takeProperties hlen).bind_last (.within (Dec.whileRemaining_of_steps (AckProps.steps h)))

theorem returns_decodeAck {R A : Type} [PrimEnum R] (mk : NonZeroU16 → R → AckProps.Acc → A)
    (success : R) (packetId : NonZeroU16) (reasonCode : R) (h : d.Fits)
    (hlen : d.wire.length ≤ maxPacketSize) :
    Dec.Returns (decodeAck mk success) (ackWire packetId (toU8 reasonCode) d)
      (mk packetId reasonCode
        { userProps := d.userProperties, reasonString := d.reasonString }) := by
  rw [ackWire, append_assoc]
  refine .bind (WireFormat.reads packetId trivial) (.more (cons_ne_nil _ _) ?_)
  refine .bind (.getU8 _) (.bind_nil (PrimEnum.reads_tryFrom reasonCode) ?_)
  exact .more (withLen_ne_nil _) (.bind_last (AckProps.reads_decode h hlen) .atEnd)

theorem returns_decodeStatus {α β : Type} [PrimEnum α] (status : List α) (f : List α → β) :
    Dec.Returns (do return f (← decodeStatus)) (statusWire status) (f status) := by
  refine .map ⟨statusWire status, ?_⟩ f
  have := Dec.Reads.mapM (l := status) fun a => PrimEnum.reads_tryFrom a
  simpa [decodeStatus, statusWire] using this (statusWire status)

theorem returns_decodeStatusAck {R A : Type} [PrimEnum R]
    (mk : NonZeroU16 → AckProps.Acc → List R → A) (packetId : NonZeroU16)
    (status : List R) (h : d.Fits) (hlen : d.wire.length ≤ maxPacketSize) :
    Dec.Returns (decodeStatusAck mk) (statusAckWire packetId d status)
      (mk packetId { userProps := d.userProperties, reasonString := d.reasonString } status) := by
  rw [statusAckWire, append_assoc]
  exact .bind (WireFormat.reads packetId trivial)
    (.bind (AckProps.reads_decode h hlen) (returns_decodeStatus status _))

/-! ## SUBSCRIBE and UNSUBSCRIBE -/

theorem SubscriptionOptions.toByte_spec (qos : QoS) (handling : RetainHandling) (a b : Bool) :
    let val := (⟨qos, a, b, handling⟩ : SubscriptionOptions).toByte
    val &&& 0b00000011 = toU8 qos ∧ (val &&& 0b00110000) >>> 4 = toU8 handling ∧
      decide (val &&& 0b00000100 ≠ 0) = a ∧ decide (val &&& 0b00001000 ≠ 0) = b := by
  revert a b
  cases qos <;> cases handling <;> decide

theorem SubscriptionOptions.reads_decode (o : SubscriptionOptions) :
    Dec.Reads SubscriptionOptions.decode [o.toByte] o := by
  obtain ⟨hqos, hhandling, hlocal, hretain⟩ := toByte_spec o.qos o.retainHandling o.noLocal
    o.retainAsPublished
  refine .needMore ((Dec.Reads.getU8 o.toByte).bind_last ?_)
  rw [hqos, hhandling, hlocal, hretain]
  exact .bind_nil (PrimEnum.reads_tryFrom o.qos)
    (.bind_nil (PrimEnum.reads_tryFrom o.retainHandling) (.pure o))

namespace Subscribe

variable {s : Subscribe}

theorem steps (h : s.Fits) : PropSteps onProperty {} s.propsWire
      { subId := s.id, userProperties := s.userProperties } := by
  have hid : PropSteps onProperty {} (subIdsWire s.id.toList) { subId := s.id } := by
    rcases hs : s.id with _ | id
    · exact .nil _
    · have hread : Dec.Reads (onProperty PropertyType.subId {}) (varLen id.1.toNat)
          { subId := some id } :=
        .bind_nil (.ensure rfl _) ((reads_readSubId (h.id id hs)).bind_last (.pure _))
      simpa [subIdsWire] using PropSteps.property hread
  exact PropSteps.user hid (fun a l => { a with userProperties := l }) s.userProperties
    h.userProperties rfl fun _ => rfl

theorem steps_filters {filters : List (String × SubscriptionOptions)}
    (h : ∀ f ∈ filters, Codec.Fits f.1) :
    Dec.Steps readFilter [] (filtersWire filters) filters :=
  .collect (fun _ => by simp) fun _ f hf =>
    (WireFormat.reads f.1 (h f hf)).bind (f.2.reads_decode.bind_last (.pure _))

theorem returns_decode (h : s.Fits) (hr : s.topicFilters ≠ [])
    (hlen : s.propsWire.length ≤ maxPacketSize) : Dec.Returns decode s.wire s := by
  rw [wire, append_assoc]
  refine .bind (WireFormat.reads s.packetId trivial) (returns_properties hlen (steps h) ?_)
  exact .loop (steps_filters h.topicFilters) (.bind_nil (.ensure hr _) (Dec.Reads.pure s).returns)

theorem rejects_decode (h : s.Fits) (hr : ¬ s.topicFilters ≠ []) (hlen : s.propsWire.length ≤ maxPacketSize) :
    Dec.Rejects decode s.wire .invalidTopicFilter := by
  rw [wire, append_assoc]
  refine .bind (WireFormat.reads s.packetId trivial) (rejects_properties hlen (steps h) ?_)
  rw [Dec.Rejects, Dec.bind_apply, Dec.whileRemaining_of_steps (steps_filters h.topicFilters)]
  exact Dec.Rejects.first (.ensure hr _ _) _

end Subscribe

namespace Unsubscribe

variable {u : Unsubscribe}

theorem steps (h : u.Fits) : PropSteps onProperty [] (userWire u.userProperties) u.userProperties :=
  (PropSteps.start onProperty []).user (fun _ l => l) u.userProperties h.userProperties rfl fun _ => rfl

theorem steps_filters {filters : List String} (h : FitsAll filters) :
    Dec.Steps readFilter [] (filtersWire filters) filters :=
  .collect (fun _ => by simp [Codec.wire, sliceWire, be16]) fun _ f hf =>
    (WireFormat.reads f (h f hf)).bind_last (.pure _)

theorem returns_decode (h : u.Fits) (hr : u.topicFilters ≠ [])
    (hlen : (userWire u.userProperties).length ≤ maxPacketSize) : Dec.Returns decode u.wire u := by
  rw [wire, append_assoc]
  refine .bind (WireFormat.reads u.packetId trivial) (returns_properties hlen (steps h) ?_)
  exact .loop (steps_filters h.topicFilters) (.bind_nil (.ensure hr _) (Dec.Reads.pure u).returns)

theorem rejects_decode (h : u.Fits) (hr : ¬ u.topicFilters ≠ [])
    (hlen : (userWire u.userProperties).length ≤ maxPacketSize) :
    Dec.Rejects decode u.wire .invalidTopicFilter := by
  rw [wire, append_assoc]
  refine .bind (WireFormat.reads u.packetId trivial) (rejects_properties hlen (steps h) ?_)
  rw [Dec.Rejects, Dec.bind_apply, Dec.whileRemaining_of_steps (steps_filters h.topicFilters)]
  exact Dec.Rejects.first (.ensure hr _ _) _

end Unsubscribe

/-! ## DISCONNECT and AUTH -/

namespace Disconnect

theorem steps {d : Disconnect} (h : d.Fits) :
    PropSteps onProperty {} (d.fixedWire ++ d.diag.wire)
      { sessionExpSecs := d.sessionExpiryIntervalSecs
        serverReference := d.serverReference
        reasonString := d.reasonString
        userProperties := d.userProperties } := by
  rw [Diag.wire, ← append_assoc]
  exact (PropSteps.start onProperty {}).option PropertyType.sessExpiryInt
      (fun a o => { a with sessionExpSecs := o }) d.sessionExpiryIntervalSecs (fun _ _ => trivial) rfl rfl
    |>.option PropertyType.serverRef (fun a o => { a with serverReference := o })
      d.serverReference h.serverReference rfl rfl
    |>.user (fun a l => { a with userProperties := l }) d.userProperties h.diag.1 rfl (fun _ => rfl)
    |>.option PropertyType.reasonString (fun a o => { a with reasonString := o })
      d.reasonString h.diag.2 rfl rfl

theorem returns_decode {d : Disconnect} (h : d.Fits)
    (hlen : (d.fixedWire ++ d.diag.wire).length ≤ maxPacketSize) : Dec.Returns decode d.wire d := by
  refine .more (cons_ne_nil _ _) (.bind (.getU8 _) ?_)
  refine .bind_nil (PrimEnum.reads_tryFrom d.reasonCode) (.more (withLen_ne_nil _) ?_)
  exact returns_lastProperties hlen (steps h) .atEnd

end Disconnect

namespace Auth

theorem steps {a : Auth} (h : a.Fits) :
    PropSteps onProperty {} (a.fixedWire ++ a.diag.wire)
      { authMethod := a.authMethod
        authData := a.authData
        reasonString := a.reasonString
        userProperties := a.userProperties } := by
  rw [Diag.wire, ← append_assoc]
  exact (PropSteps.start onProperty {}).option PropertyType.authMethod
      (fun a o => { a with authMethod := o }) a.authMethod h.authMethod rfl rfl
    |>.option PropertyType.authData (fun a o => { a with authData := o }) a.authData h.authData rfl rfl
    |>.user (fun a l => { a with userProperties := l }) a.userProperties h.diag.1 rfl (fun _ => rfl)
    |>.option PropertyType.reasonString (fun a o => { a with reasonString := o })
      a.reasonString h.diag.2 rfl rfl

theorem returns_decode {a : Auth} (h : a.Fits)
    (hlen : (a.fixedWire ++ a.diag.wire).length ≤ maxPacketSize) : Dec.Returns decode a.wire a := by
  refine .more (cons_ne_nil _ _) (.bind (.getU8 _) ?_)
  refine .bind_nil (PrimEnum.reads_tryFrom a.reasonCode) (.more (withLen_ne_nil _) ?_)
  exact returns_lastProperties hlen (steps h) .atEnd

end Auth

/-! ## Packets -/

namespace Packet

theorem returns_decodePacket {p : Packet} (h : p.Fits) (hr : p.Readable)
    (hlen : p.wire.length ≤ maxPacketSize) :
    Dec.Returns (decodePacket p.firstByte) p.wire p.normal := by
  cases p
  all_goals simp only [wire, Connect.wire, ConnectAck.wire, Publish.wire, PublishAck.wire,
    PublishAck2.wire, ackWire, Subscribe.wire, SubscribeAck.wire, Unsubscribe.wire,
    UnsubscribeAck.wire, statusAckWire, Disconnect.wire, Auth.wire, withLen, length_append] at hlen
  case connect c =>
    refine (Connect.reads_decode h hr (by omega) fun w hw => ?_).returns.map _
    rw [Option.mem_def] at hw
    simp only [hw, Option.map_some, Option.getD_some, LastWill.wire, withLen,
      length_append] at hlen
    omega
  case connectAck a =>
    exact (ConnectAck.returns_decode h (by simp only [length_append]; omega)).map _
  case publish p =>
    have hfirst : PacketType.publishStart ≤ (publish p).firstByte ∧
        (publish p).firstByte ≤ PacketType.publishEnd :=
      (publishFlags_spec p.qos p.dup p.retain).1
    rw [decodePacket, if_pos hfirst]
    exact (Publish.returns_decode h (by omega)).map _
  case publishAck a | publishReceived a | publishRelease a | publishComplete a =>
    exact (returns_decodeAck _ _ a.packetId a.reasonCode h (by omega)).map _
  case subscribe s => exact (Subscribe.returns_decode h hr (by omega)).map _
  case subscribeAck a | unsubscribeAck a =>
    exact (returns_decodeStatusAck _ a.packetId a.status h (by omega)).map _
  case unsubscribe u => exact (Unsubscribe.returns_decode h hr (by omega)).map _
  case pingRequest | pingResponse => exact ⟨[], rfl⟩
  case disconnect d =>
    exact (Disconnect.returns_decode h (by simp only [length_append]; omega)).map _
  case auth a => exact (Auth.returns_decode h (by simp only [length_append]; omega)).map _

def rejection : Packet → DecodeError
  | .connect _ => .invalidClientId
  | _ => .invalidTopicFilter

theorem rejects_decodePacket {p : Packet} (h : p.Fits) (hr : ¬ p.Readable)
    (hlen : p.wire.length ≤ maxPacketSize) :
    Dec.Rejects (decodePacket p.firstByte) p.wire p.rejection := by
  cases p with
  | connect c =>
    simp only [wire, Connect.wire, withLen, length_append] at hlen
    exact (Connect.rejects_decode h hr (by omega)).first _
  | subscribe s =>
    simp only [wire, Subscribe.wire, withLen, length_append] at hlen
    exact (Subscribe.rejects_decode h hr (by omega)).first _
  | unsubscribe u =>
    simp only [wire, Unsubscribe.wire, withLen, length_append] at hlen
    exact (Unsubscribe.rejects_decode h hr (by omega)).first _
  | _ => exact absurd trivial hr

end Packet

end FerroMq.Codec.V5
