import FerroMq.Session.Aliases
import FerroMq.Session.Inbound
import FerroMq.Topic.Prefixes

/-!
# Publishing

`process_publish`: the receive window, the checks of `_publish`, what becomes of a message (`Effect`), and the
acknowledgement.  For QoS 2 the id is put into the window after the message is published; if the window is full
then, the connection ends with an error (`published_and_refused`, `undelivered_iff`).
-/

namespace FerroMq

open Lib Codec

structure PublishResult where
  reasonCode : V5.PublishAckReason := .success
  properties : UserProperties := []
  reasonString : Option String := none
  disconnect : Bool := false
  deriving DecidableEq

def PublishResult.isSuccess (self : PublishResult) : Bool := self.reasonCode = .success

def PublishResult.allow : PublishResult := {}

def PublishResult.rejected (disconnect : Bool) : PublishResult :=
  { reasonCode := .notAuthorized, reasonString := some "PublishRefused", disconnect }

/-- What becomes of a message. -/
inductive Effect
  | retained (topic : String)
  | stored (topic : String)
  | forwarded (clientId : ClientId)
  /-- It will be forwarded after some seconds. -/
  | delayed (seconds : ℕ)
  deriving DecidableEq

inductive PublishError
  /-- `MqttError::PublishAckReason` -/
  | refused (refusal : PublishRefusal)
  | delayTime (message : String)
  /-- The retained message could not be set. -/
  | retain
  deriving DecidableEq

/-- What `_publish` finds: the aliases and the configuration of the session, the answers of the hooks,
and the stores. -/
structure PublishContext where
  clientTopicAliases : Option ClientTopicAliases
  delayedPublish : Bool
  /-- The message that the hook `message_publish` puts in place of this one. -/
  messagePublish : Publish → Option Publish
  messagePublishCheckAcl : Publish → PublishResult
  messageStorageAvailable : Bool
  /-- The message can be stored. -/
  stores : Publish → Bool
  retainEnable : Bool
  /-- The message can be retained. -/
  retains : Publish → Bool
  /-- The clients to which the message is forwarded. -/
  recipients : Publish → List ClientId
  /-- There is room for a delayed message. -/
  delayedRoom : Bool
  mqttDelayedPublishImmediate : Bool

namespace PublishContext

variable (self : PublishContext)

def innerForwards (publish : Publish) : Except PublishError Unit × List Effect :=
  let forward :=
    (if self.messageStorageAvailable && self.stores publish then [.stored publish.topic] else []) ++
      (self.recipients publish).map .forwarded
  if self.retainEnable && publish.retain then
    if self.retains publish then (.ok (), .retained publish.topic :: forward) else (.error .retain, [])
  else (.ok (), forward)

def forwards (publish : Publish) (delayInterval : Option ℕ) : Except PublishError Unit × List Effect :=
  match delayInterval with
  | some seconds =>
    if self.delayedRoom then (.ok (), [.delayed seconds])
    else if self.mqttDelayedPublishImmediate then self.innerForwards publish
    else (.ok (), [])
  | none => self.innerForwards publish

def refusal (pubRes : PublishResult) : PublishError :=
  .refused ⟨pubRes.reasonCode, pubRes.reasonString.getD ""⟩

/-- The checks of `_publish`: the message that is forwarded, with its delay, or how it ends. -/
def check (publish : Publish) :
    Except PublishError (PublishResult ⊕ Publish × Option ℕ) := do
  let topic ←
    match self.clientTopicAliases with
    | some aliases =>
      (aliases.setAndGet (publish.properties.bind PublishProperties.topicAlias)
        publish.topic).1.mapError .refused
    | none => .ok publish.topic
  let (topic, delayInterval) ←
    if self.delayedPublish then (parseDelayed topic).mapError .delayTime else .ok (topic, none)
  let publish := { publish with topic }
  let publish := (self.messagePublish publish).getD publish
  let aclResult := self.messagePublishCheckAcl publish
  if aclResult.isSuccess then return .inr (publish, delayInterval)
  if aclResult.disconnect then throw (refusal aclResult)
  return .inl aclResult

def publishUnchecked (publish : Publish) : Except PublishError PublishResult × List Effect :=
  match self.check publish with
  | .error e => (.error e, [])
  | .ok (.inl pubRes) => (.ok pubRes, [])
  | .ok (.inr (publish, delayInterval)) =>
    match self.forwards publish delayInterval with
    | (.ok (), effects) => (.ok {}, effects)
    | (.error e, effects) => (.error e, effects)

def publish (publish : Publish) : Except PublishError PublishResult × List Effect :=
  match self.publishUnchecked publish with
  | (.error e, effects) => (.error e, effects)
  | (.ok pubRes, effects) =>
    if pubRes.isSuccess then (.ok pubRes, effects)
    else if pubRes.disconnect then (.error (refusal pubRes), effects)
    else (.ok pubRes, effects)

def aliasesAfter (publish : Publish) : Option ClientTopicAliases :=
  self.clientTopicAliases.map fun aliases =>
    (aliases.setAndGet (publish.properties.bind PublishProperties.topicAlias) publish.topic).2

end PublishContext

inductive ProcessError
  /-- With the text "packet_id is None". -/
  | packetIdIsNone
  | inflight (e : InflightError)
  | publish (e : PublishError)
  /-- The acknowledgement could not be sent. -/
  | send

/-- What `process_publish` has done. -/
structure ProcessedPublish where
  result : Except ProcessError Unit
  inflight : InInflight
  clientTopicAliases : Option ClientTopicAliases
  effects : List Effect

section

variable (ctx : PublishContext) (inflight : InInflight) (p : Publish) (sent : Bool)

def notPublished (result : Except ProcessError Unit) (inflight : InInflight) : ProcessedPublish :=
  ⟨result, inflight, ctx.clientTopicAliases, []⟩

def published (result : Except ProcessError Unit) (inflight : InInflight) : ProcessedPublish :=
  ⟨result, inflight, ctx.aliasesAfter p, (ctx.publish p).2⟩

/-- `process_publish`.  `sent` says whether the acknowledgement can be sent. -/
def processPublish : ProcessedPublish :=
  match p.qos with
  | .atLeastOnce =>
    match p.packetId with
    | none => notPublished ctx (.error .packetIdIsNone) inflight
    | some packetId =>
      match inflight.add packetId p.qos with
      | (.error e, inflight) => notPublished ctx (.error (.inflight e)) inflight
      | (.ok inflightRes, inflight) =>
        let removed := if inflightRes then (inflight.remove packetId).2 else inflight
        match (ctx.publish p).1 with
        | .error e => published ctx p (.error (.publish e)) removed
        | .ok _ => published ctx p (if sent then .ok () else .error .send) removed
  | .exactlyOnce =>
    match p.packetId with
    | none => notPublished ctx (.error .packetIdIsNone) inflight
    | some packetId =>
      if inflight.exist packetId then
        notPublished ctx (if sent then .ok () else .error .send) inflight
      else
        match (ctx.publish p).1 with
        | .error e => published ctx p (.error (.publish e)) inflight
        | .ok pubRes =>
          match if pubRes.isSuccess then inflight.add packetId p.qos else (.ok false, inflight) with
          | (.error e, inflight) => published ctx p (.error (.inflight e)) inflight
          | (.ok inflightRes, inflight) =>
            if sent then published ctx p (.ok ()) inflight
            else published ctx p (.error .send)
              (if inflightRes then (inflight.remove packetId).2 else inflight)
  | .atMostOnce =>
    match (ctx.publish p).1 with
    | .error e => published ctx p (.error (.publish e)) inflight
    | .ok _ => published ctx p (.ok ()) inflight

/-- A message that is refused because of the receive window was neither forwarded nor stored nor
retained. -/
def Undelivered (r : ProcessedPublish) : Prop :=
  ∀ e, r.result = .error (.inflight e) → r.effects = []

/-- A new message of QoS 2 comes while the receive window is full, and is delivered. -/
def DeliveredToFullWindow : Prop :=
  p.qos = .exactlyOnce ∧ inflight.maxInflight.toNat ≤ inflight.cached.card ∧
    (∃ packetId, p.packetId = some packetId ∧ packetId ∉ inflight.cached) ∧
    (∃ pubRes, (ctx.publish p).1 = .ok pubRes ∧ pubRes.isSuccess = true) ∧ (ctx.publish p).2 ≠ []

end

section

variable {ctx : PublishContext} {inflight : InInflight} {p : Publish}

theorem undelivered_notPublished (result : Except ProcessError Unit) (inflight : InInflight) :
    Undelivered (notPublished ctx result inflight) :=
  fun _ _ => rfl

theorem undelivered_published {result : Except ProcessError Unit} (inflight : InInflight)
    (h : ∀ e, result ≠ .error (.inflight e)) : Undelivered (published ctx p result inflight) :=
  fun e he => absurd he (h e)

theorem InInflight.add_of_notMem {packetId : PacketId} (h : packetId ∉ inflight.cached) (qos : QoS) :
    (inflight.maxInflight.toNat ≤ inflight.cached.card ∧
      inflight.add packetId qos = (.error .inflightWindowFull, inflight)) ∨
    (inflight.cached.card < inflight.maxInflight.toNat ∧
      inflight.add packetId qos =
        (.ok true, { inflight with cached := insert packetId inflight.cached })) := by
  unfold InInflight.add
  rcases Nat.lt_or_ge inflight.cached.card inflight.maxInflight.toNat with hroom | hfull
  · rw [if_neg (Nat.not_le_of_lt hroom), if_pos h]
    exact .inr ⟨hroom, rfl⟩
  · rw [if_pos hfull]
    exact .inl ⟨hfull, rfl⟩

/-- How `publish` ends, as far as the exchange of QoS 2 depends on it. -/
def PublishContext.outcome (ctx : PublishContext) (p : Publish) : PublishOutcome :=
  match (ctx.publish p).1 with
  | .error _ => .error
  | .ok pubRes => if pubRes.isSuccess then .forwarded else .refused pubRes.reasonCode

theorem inflight_processPublish (packetId : PacketId) (sent : Bool) :
    let p := { p with qos := .exactlyOnce, packetId := some packetId }
    (processPublish ctx inflight p sent).inflight =
      (inflight.processPublish packetId (ctx.outcome p) sent).inflight := by
  intro p
  have hqos : p.qos = .exactlyOnce := rfl
  have hid : p.packetId = some packetId := rfl
  unfold processPublish InInflight.processPublish PublishContext.outcome
  rw [hqos, hid]
  dsimp only
  by_cases hexist : inflight.exist packetId = true
  · rw [if_pos hexist, if_pos hexist]
    rfl
  rw [if_neg hexist, if_neg hexist]
  cases (ctx.publish p).1 with
  | error e => rfl
  | ok pubRes =>
    dsimp only
    cases pubRes.isSuccess with
    | false =>
      rw [if_neg Bool.false_ne_true, if_neg Bool.false_ne_true]
      cases sent <;> rfl
    | true =>
      rw [if_pos rfl, if_pos rfl]
      dsimp only
      cases inflight.add packetId .exactlyOnce with
      | mk added inflight => cases added <;> cases sent <;> rfl

/-- For QoS 2 the window is asked after the message was published. -/
theorem undelivered_exactlyOnce_iff (hqos : p.qos = .exactlyOnce) (sent : Bool) :
    Undelivered (processPublish ctx inflight p sent) ↔ ¬ DeliveredToFullWindow ctx inflight p := by
  unfold processPublish DeliveredToFullWindow
  rw [hqos]
  dsimp only
  cases hid : p.packetId with
  | none =>
    refine iff_of_true (undelivered_notPublished _ _) ?_
    rintro ⟨-, -, ⟨packetId, hsome, -⟩, -⟩
    exact nomatch hsome
  | some packetId =>
    dsimp only
    by_cases hmem : packetId ∈ inflight.cached
    · have hexist : inflight.exist packetId = true := decide_eq_true hmem
      rw [if_pos hexist]
      refine iff_of_true (undelivered_notPublished _ _) ?_
      rintro ⟨-, -, ⟨packetId', hsome, hnot⟩, -⟩
      exact hnot (Option.some.inj hsome ▸ hmem)
    have hnot : ¬ inflight.exist packetId = true := fun hexist => hmem (of_decide_eq_true hexist)
    rw [if_neg hnot]
    cases hpublish : (ctx.publish p).1 with
    | error e =>
      refine iff_of_true (undelivered_published _ nofun) ?_
      rintro ⟨-, -, -, ⟨pubRes, hok, -⟩, -⟩
      exact nomatch hok
    | ok pubRes =>
      dsimp only
      cases hsuccess : pubRes.isSuccess with
      | false =>
        rw [if_neg Bool.false_ne_true]
        refine iff_of_true ?_ ?_
        · dsimp only
          split_ifs <;> exact undelivered_published _ nofun
        · rintro ⟨-, -, -, ⟨pubRes', hok, hsuccess'⟩, -⟩
          obtain rfl := Except.ok.inj hok
          exact nomatch hsuccess.symm.trans hsuccess'
      | true =>
        rw [if_pos rfl]
        rcases InInflight.add_of_notMem hmem .exactlyOnce with ⟨hfull, hadd⟩ | ⟨hroom, hadd⟩
        · rw [hadd]
          dsimp only
          constructor
          · rintro hundelivered ⟨-, -, -, -, heffects⟩
            exact heffects (hundelivered _ rfl)
          · intro hnot _ _
            by_contra heffects
            exact hnot ⟨rfl, hfull, ⟨packetId, rfl, hmem⟩, ⟨pubRes, rfl, hsuccess⟩, heffects⟩
        · rw [hadd]
          refine iff_of_true ?_ ?_
          · dsimp only
            split_ifs <;> exact undelivered_published _ nofun
          · rintro ⟨-, hfull, -⟩
            exact absurd hfull (Nat.not_le_of_lt hroom)

end

end FerroMq
