import FerroMq.Codec.V5.Packet
import FerroMq.Lib.History

/-!
# Messages of QoS 2 from the client

The event loop does not forward a PUBLISH whose packet id is in `InInflight`, which starts empty when the
session is resumed: a message whose PUBREC was lost is forwarded again (`forwarded_twice`).  If the client has
the PUBREC of everything forwarded when it comes back, nothing is forwarded twice (`forwarded_once`).
-/

namespace FerroMq

open Lib Codec List
open Function (update update_self update_of_ne)

abbrev PacketId := NonZeroU16

/-! ## The broker -/

structure InInflight where
  cached : Finset PacketId := ∅
  maxInflight : UInt16

inductive InflightError
  | inflightWindowFull
  | packetIdInUse (pid : PacketId)

namespace InInflight

def add (self : InInflight) (pid : PacketId) (qos : QoS) : Except InflightError Bool × InInflight :=
  if self.maxInflight.toNat ≤ self.cached.card then (.error .inflightWindowFull, self)
  else if pid ∉ self.cached then (.ok true, { self with cached := insert pid self.cached })
  else
    match qos with
    | .exactlyOnce => (.error (.packetIdInUse pid), self)
    | _ => (.ok false, self)

def exist (self : InInflight) (pid : PacketId) : Bool := pid ∈ self.cached

def remove (self : InInflight) (pid : PacketId) : Bool × InInflight :=
  (pid ∈ self.cached, { self with cached := self.cached.erase pid })

end InInflight

/-- How `publish` ends: with an error, with a result other than success, or with the message
forwarded. -/
inductive PublishOutcome
  | error
  | refused (reason : V5.PublishAckReason)
  | forwarded

inductive BrokerPacket
  | pubrec (pid : PacketId) (reason : V5.PublishAckReason)
  | pubcomp (pid : PacketId)

/-- What the event loop has done with a packet. -/
structure Processed where
  inflight : InInflight
  forwarded : Bool
  reply : Option BrokerPacket
  /-- The loop goes on. -/
  goesOn : Bool

namespace InInflight

/-- `process_publish` for QoS 2.  `sent` says whether the PUBREC can be sent. -/
def processPublish (self : InInflight) (pid : PacketId) (outcome : PublishOutcome) (sent : Bool) :
    Processed :=
  if self.exist pid then
    ⟨self, false, if sent then some (.pubrec pid .packetIdentifierInUse) else none, sent⟩
  else
    match outcome with
    | .error => ⟨self, false, none, false⟩
    | .refused reason => ⟨self, false, if sent then some (.pubrec pid reason) else none, sent⟩
    | .forwarded =>
      match self.add pid .exactlyOnce with
      | (.error _, self) => ⟨self, true, none, false⟩
      | (.ok inflightRes, self) =>
        if sent then ⟨self, true, some (.pubrec pid .success), true⟩
        else ⟨if inflightRes then (self.remove pid).2 else self, true, none, false⟩

def processRelease (self : InInflight) (pid : PacketId) (sent : Bool) : Processed :=
  ⟨(self.remove pid).2, false, if sent then some (.pubcomp pid) else none, sent⟩

end InInflight

/-! ## The client and the connection -/

/-- Where the client stands with a packet id: before its exchange number `n`, before the PUBREC of it,
or before the PUBCOMP of it. -/
inductive Exchange
  | idle (n : ℕ)
  | publishing (n : ℕ)
  | releasing (n : ℕ)
  deriving DecidableEq

/-- A packet of the client, with the number of the exchange that it belongs to. -/
inductive InboundPacket
  | publish (pid : PacketId) (n : ℕ)
  | pubrel (pid : PacketId) (n : ℕ)
  deriving DecidableEq

structure Inbound where
  client : PacketId → Exchange
  /-- On the way to the broker. -/
  up : List InboundPacket
  /-- On the way to the client. -/
  down : List BrokerPacket
  connected : Bool
  /-- The event loop of the connection is running. -/
  serving : Bool
  inflight : InInflight
  /-- The messages that were forwarded, by packet id and exchange. -/
  forwarded : List (PacketId × ℕ)

namespace Inbound

inductive Action
  /-- The client sends the PUBLISH of a new exchange, or the last one again. -/
  | publish (pid : PacketId)
  | release (pid : PacketId)
  | serve (outcome : PublishOutcome) (sent : Bool)
  | receive
  /-- The client loses the connection.  What it has sent may still arrive. -/
  | lose
  /-- The client resumes the session with a new connection. -/
  | reconnect

def init (maxInflight : UInt16) : Inbound where
  client _ := .idle 0
  up := []
  down := []
  connected := true
  serving := true
  inflight := { maxInflight }
  forwarded := []

def clientPublish (s : Inbound) (pid : PacketId) : Inbound :=
  match s.client pid with
  | .idle n =>
    { s with
      client := Function.update s.client pid (.publishing n)
      up := s.up ++ [.publish pid n] }
  | .publishing n => { s with up := s.up ++ [.publish pid n] }
  | .releasing _ => s

def clientRelease (s : Inbound) (pid : PacketId) : Inbound :=
  match s.client pid with
  | .releasing n => { s with up := s.up ++ [.pubrel pid n] }
  | _ => s

def serve (s : Inbound) (outcome : PublishOutcome) (sent : Bool) : Inbound :=
  match s.up with
  | [] => s
  | .publish pid n :: up =>
    let r := s.inflight.processPublish pid outcome sent
    { s with
      up
      down := s.down ++ r.reply.toList
      serving := r.goesOn
      inflight := r.inflight
      forwarded := if r.forwarded then s.forwarded ++ [(pid, n)] else s.forwarded }
  | .pubrel pid _ :: up =>
    let r := s.inflight.processRelease pid sent
    { s with up, down := s.down ++ r.reply.toList, serving := r.goesOn, inflight := r.inflight }

def clientReceive (s : Inbound) : Inbound :=
  match s.down with
  | [] => s
  | .pubrec pid _ :: down =>
    { s with
      down
      client := Function.update s.client pid (match s.client pid with
        | .publishing n => .releasing n
        | e => e) }
  | .pubcomp pid :: down =>
    { s with
      down
      client := Function.update s.client pid (match s.client pid with
        | .releasing n => .idle (n + 1)
        | e => e) }

def exec (s : Inbound) : Action → Inbound
  | .publish pid => if s.connected then s.clientPublish pid else s
  | .release pid => if s.connected then s.clientRelease pid else s
  | .serve outcome sent => if s.serving then s.serve outcome sent else s
  | .receive => if s.connected then s.clientReceive else s
  | .lose => { s with connected := false, down := [] }
  | .reconnect =>
    if s.connected then s
    else
      { s with
        up := []
        down := []
        connected := true
        serving := true
        inflight := { maxInflight := s.inflight.maxInflight } }

def run (s : Inbound) (actions : List Action) : Inbound := actions.foldl exec s

/-- When the client comes back, it has the PUBREC of everything that was forwarded. -/
def Settled (s : Inbound) : Action → Prop
  | .reconnect => ∀ x ∈ s.forwarded, s.client x.1 ≠ .publishing x.2
  | _ => True

instance (s : Inbound) : (a : Action) → Decidable (s.Settled a)
  | .reconnect => inferInstanceAs (Decidable (∀ x ∈ s.forwarded, s.client x.1 ≠ .publishing x.2))
  | .publish _ | .release _ | .serve .. | .receive | .lose => inferInstanceAs (Decidable True)

end Inbound

/-! ## The invariant -/

namespace InInflight

variable {self : InInflight} {pid : PacketId}

/-- A PUBLISH is forwarded only if its id is not known, and then it is known as long as the loop goes
on. -/
theorem processPublish_spec (self : InInflight) (pid : PacketId) (outcome : PublishOutcome)
    (sent : Bool) :
    let r := self.processPublish pid outcome sent
    (r.forwarded = true → pid ∉ self.cached) ∧
      (r.goesOn = true → r.inflight.cached = if r.forwarded then insert pid self.cached
        else self.cached) := by
  unfold processPublish
  by_cases hexist : self.exist pid = true
  · rw [if_pos hexist]
    exact ⟨nofun, fun _ => rfl⟩
  · rw [if_neg hexist]
    have hpid : pid ∉ self.cached := by simpa [exist] using hexist
    cases outcome with
    | error => exact ⟨nofun, nofun⟩
    | refused reason => exact ⟨nofun, fun _ => rfl⟩
    | forwarded =>
      refine ⟨fun _ => hpid, ?_⟩
      dsimp only
      unfold add
      by_cases hfull : self.maxInflight.toNat ≤ self.cached.card
      · rw [if_pos hfull]
        exact nofun
      · rw [if_neg hfull, if_pos hpid]
        cases sent with
        | false => exact nofun
        | true => exact fun _ => rfl

end InInflight

namespace InboundPacket

def pid : InboundPacket → PacketId
  | publish pid _ | pubrel pid _ => pid

/-- The place of a packet in the exchanges of its id. -/
def rank : InboundPacket → ℕ
  | publish _ n => 2 * n
  | pubrel _ n => 2 * n + 1

end InboundPacket

/-- What the client has sent so far has smaller ranks. -/
def Exchange.limit : Exchange → ℕ
  | idle n => 2 * n
  | publishing n => 2 * n + 1
  | releasing n => 2 * n + 2

namespace Inbound

structure Inv (s : Inbound) : Prop where
  nodup : s.forwarded.Nodup
  sorted : s.up.Pairwise fun x y => x.pid = y.pid → x.rank ≤ y.rank
  sent : ∀ y ∈ s.up, y.rank < (s.client y.pid).limit
  known : ∀ x ∈ s.forwarded, 2 * x.2 < (s.client x.1).limit
  /-- What is on the way is not older than what was forwarded. -/
  later : ∀ x ∈ s.forwarded, ∀ y ∈ s.up, y.pid = x.1 → 2 * x.2 ≤ y.rank
  /-- A message that was forwarded and may come again is known. -/
  cached : s.serving = true → ∀ x ∈ s.forwarded,
    (.publish x.1 x.2 ∈ s.up ∨ s.client x.1 = .publishing x.2) → x.1 ∈ s.inflight.cached

theorem inv_init (maxInflight : UInt16) : Inv (init maxInflight) where
  nodup := nodup_nil
  sorted := .nil
  sent _ h := nomatch h
  known _ h := nomatch h
  later _ h := nomatch h
  cached _ _ h := nomatch h

variable {s : Inbound}

variable {pid : PacketId} {y : InboundPacket} {up : List InboundPacket}

theorem Inv.send (h : Inv s) {e : Exchange} (hy : y.pid = pid)
    (hlimit : (s.client pid).limit ≤ e.limit) (hrank : y.rank + 1 = e.limit)
    (hcached : s.serving = true → ∀ x ∈ s.forwarded, x.1 = pid →
      (y = .publish x.1 x.2 ∨ e = .publishing x.2) → x.1 ∈ s.inflight.cached) :
    Inv { s with client := update s.client pid e, up := s.up ++ [y] } := by
  have hmono (q : PacketId) : (s.client q).limit ≤ (update s.client pid e q).limit := by
    rcases eq_or_ne q pid with rfl | hq
    · rwa [update_self]
    · rw [update_of_ne hq]
  refine ⟨h.nodup, ?_, ?_, fun x hx => (h.known x hx).trans_le (hmono x.1), ?_, ?_⟩
  · rw [pairwise_append]
    refine ⟨h.sorted, pairwise_singleton _ _, fun x hx y' hy' hxy => ?_⟩
    obtain rfl := mem_singleton.1 hy'
    have hlt := h.sent x hx
    rw [hxy, hy] at hlt
    omega
  · intro x hx
    rcases mem_append.1 hx with hx | hx
    · exact (h.sent x hx).trans_le (hmono x.pid)
    · obtain rfl := mem_singleton.1 hx
      change x.rank < (update s.client pid e x.pid).limit
      rw [hy, update_self]
      omega
  · intro x hx y' hy' hxy
    rcases mem_append.1 hy' with hy' | hy'
    · exact h.later x hx y' hy' hxy
    · obtain rfl := mem_singleton.1 hy'
      have hlt := h.known x hx
      rw [← hxy, hy] at hlt
      omega
  · intro hserving x hx hagain
    dsimp only at hagain
    rcases eq_or_ne x.1 pid with hpid | hpid
    · rw [hpid, update_self, mem_append, mem_singleton, or_assoc] at hagain
      rcases hagain with hagain | hagain
      · exact h.cached hserving x hx (.inl (hpid ▸ hagain))
      · refine hcached hserving x hx hpid (hagain.imp (fun heq => ?_) id)
        rw [hpid]
        exact heq.symm
    · rw [update_of_ne hpid, mem_append, mem_singleton] at hagain
      refine h.cached hserving x hx (hagain.imp_left fun hmem => hmem.resolve_right fun heq => hpid ?_)
      rw [← hy, ← heq]
      rfl

theorem Inv.sendAgain (h : Inv s) (hrank : y.rank + 1 = (s.client y.pid).limit)
    (hpublish : ∀ n, s.client y.pid = .publishing n ↔ y = .publish y.pid n) :
    Inv { s with up := s.up ++ [y] } := by
  have hsend := h.send rfl le_rfl hrank fun hserving x hx hpid hagain =>
    h.cached hserving x hx (.inr ?_)
  · rwa [Function.update_eq_self] at hsend
  · rw [hpid] at hagain ⊢
    exact hagain.elim (hpublish x.2).2 id

theorem Inv.clientPublish (h : Inv s) (pid : PacketId) : Inv (s.clientPublish pid) := by
  unfold Inbound.clientPublish
  cases hclient : s.client pid with
  | idle n =>
    refine h.send rfl ?_ rfl fun _ x hx hpid hagain => ?_
    · rw [hclient]
      exact Nat.le_succ _
    · -- No message of the new exchange was forwarded.
      have hlt := h.known x hx
      rw [hpid, hclient] at hlt
      have hn : n = x.2 := by
        rcases hagain with hagain | hagain
        · exact (InboundPacket.publish.inj hagain).2
        · exact Exchange.publishing.inj hagain
      exact absurd hlt (by rw [hn]; exact lt_irrefl _)
  | publishing n =>
    refine h.sendAgain (congrArg Exchange.limit hclient.symm) fun m => ?_
    change s.client pid = _ ↔ InboundPacket.publish pid n = .publish pid m
    rw [hclient, Exchange.publishing.injEq, InboundPacket.publish.injEq]
    exact (and_iff_right rfl).symm
  | releasing n => exact h

theorem Inv.clientRelease (h : Inv s) (pid : PacketId) : Inv (s.clientRelease pid) := by
  unfold Inbound.clientRelease
  cases hclient : s.client pid with
  | idle n | publishing n => exact h
  | releasing n =>
    refine h.sendAgain (congrArg Exchange.limit hclient.symm) fun m => ?_
    change s.client pid = _ ↔ InboundPacket.pubrel pid n = .publish pid m
    rw [hclient]
    exact iff_of_false nofun nofun

theorem Inv.advance (h : Inv s) {e : Exchange} (down : List BrokerPacket)
    (hlimit : (s.client pid).limit ≤ e.limit)
    (hpublishing : ∀ n, e = .publishing n → s.client pid = .publishing n) :
    Inv { s with down, client := update s.client pid e } := by
  have hmono (q : PacketId) : (s.client q).limit ≤ (update s.client pid e q).limit := by
    rcases eq_or_ne q pid with rfl | hq
    · rwa [update_self]
    · rw [update_of_ne hq]
  refine ⟨h.nodup, h.sorted, fun y hy => (h.sent y hy).trans_le (hmono y.pid),
    fun x hx => (h.known x hx).trans_le (hmono x.1), h.later, fun hserving x hx hagain => ?_⟩
  refine h.cached hserving x hx (hagain.imp_right fun heq => ?_)
  dsimp only at heq
  rcases eq_or_ne x.1 pid with hpid | hpid
  · rw [hpid, update_self] at heq
    rw [hpid]
    exact hpublishing x.2 heq
  · rwa [update_of_ne hpid] at heq

theorem Inv.clientReceive (h : Inv s) : Inv s.clientReceive := by
  unfold Inbound.clientReceive
  split
  · exact h
  · rename_i pid _ down _
    cases hclient : s.client pid with
    | idle n => exact h.advance down (by rw [hclient]) nofun
    | publishing n =>
      exact h.advance down (by rw [hclient]; exact Nat.le_succ _) nofun
    | releasing n => exact h.advance down (by rw [hclient]) nofun
  · rename_i pid down _
    cases hclient : s.client pid with
    | idle n => exact h.advance down (by rw [hclient]) nofun
    | publishing n => exact h.advance down (by rw [hclient]) fun _ he => hclient.trans he
    | releasing n => exact h.advance down (by rw [hclient]; exact le_rfl) nofun

theorem Inv.forward (h : Inv s) {n : ℕ}
    (hup : s.up = .publish pid n :: up) (hserving : s.serving = true) {r : Processed}
    (hforwarded : pid ∉ s.inflight.cached)
    (hcached : r.goesOn = true → r.inflight.cached = insert pid s.inflight.cached) (down : List BrokerPacket) :
    Inv { s with
      up, down, serving := r.goesOn, inflight := r.inflight, forwarded := s.forwarded ++ [(pid, n)] } := by
  have hsorted := pairwise_cons.1 (hup ▸ h.sorted)
  have hmem {y : InboundPacket} (hy : y ∈ up) : y ∈ s.up := hup ▸ mem_cons_of_mem _ hy
  have hhead : .publish pid n ∈ s.up := hup ▸ mem_cons_self
  have hfresh : (pid, n) ∉ s.forwarded := fun hold =>
    hforwarded (h.cached hserving _ hold (.inl hhead))
  refine ⟨?_, hsorted.2, fun y hy => h.sent y (hmem hy), ?_, ?_, ?_⟩
  · refine h.nodup.append (nodup_singleton _) (disjoint_right.2 fun x hx => ?_)
    rwa [mem_singleton.1 hx]
  · intro x hx
    rcases mem_append.1 hx with hx | hx
    · exact h.known x hx
    · rw [mem_singleton.1 hx]
      exact h.sent _ hhead
  · intro x hx y hy hxy
    rcases mem_append.1 hx with hx | hx
    · exact h.later x hx y (hmem hy) hxy
    · rw [mem_singleton.1 hx] at hxy ⊢
      exact hsorted.1 y hy hxy.symm
  · intro hgoesOn x hx hagain
    dsimp only
    rw [hcached hgoesOn]
    rcases mem_append.1 hx with hx | hx
    · exact Finset.mem_insert_of_mem (h.cached hserving x hx (hagain.imp_left hmem))
    · rw [mem_singleton.1 hx]
      exact Finset.mem_insert_self pid _

/-- The event loop drops the packet that it takes.  It forgets ids only of exchanges that are over. -/
theorem Inv.drop (h : Inv s) (hup : s.up = y :: up) (hserving : s.serving = true) {r : Processed}
    (hcached : r.goesOn = true → ∀ x ∈ s.forwarded, x.1 ∈ s.inflight.cached →
      (.publish x.1 x.2 ∈ up ∨ s.client x.1 = .publishing x.2) → x.1 ∈ r.inflight.cached)
    (down : List BrokerPacket) : Inv { s with up, down, serving := r.goesOn, inflight := r.inflight } := by
  have hmem {z : InboundPacket} (hz : z ∈ up) : z ∈ s.up := hup ▸ mem_cons_of_mem _ hz
  exact {
    nodup := h.nodup
    sorted := (pairwise_cons.1 (hup ▸ h.sorted)).2
    sent := fun z hz => h.sent z (hmem hz)
    known := h.known
    later := fun x hx z hz => h.later x hx z (hmem hz)
    cached := fun hgoesOn x hx hagain =>
      hcached hgoesOn x hx (h.cached hserving x hx (hagain.imp_left hmem)) hagain }

/-- When the PUBREL of an exchange arrives, the client does not send its PUBLISH any more. -/
theorem Inv.not_again (h : Inv s) {n : ℕ}
    (hup : s.up = .pubrel pid n :: up) {x : PacketId × ℕ} (hx : x ∈ s.forwarded) (hpid : x.1 = pid) :
    ¬ (.publish x.1 x.2 ∈ up ∨ s.client x.1 = .publishing x.2) := by
  have hhead : .pubrel pid n ∈ s.up := hup ▸ mem_cons_self
  have hle : 2 * x.2 ≤ 2 * n + 1 := h.later x hx _ hhead hpid.symm
  rintro (hagain | hagain)
  · have hsorted := pairwise_cons.1 (hup ▸ h.sorted)
    have hlt : 2 * n + 1 ≤ 2 * x.2 := hsorted.1 _ hagain hpid.symm
    omega
  · have hlt : 2 * n + 1 < (s.client pid).limit := h.sent _ hhead
    rw [← hpid, hagain] at hlt
    change 2 * n + 1 < 2 * x.2 + 1 at hlt
    omega

theorem Inv.serve (h : Inv s) (hserving : s.serving = true) (outcome : PublishOutcome) (sent : Bool) :
    Inv (s.serve outcome sent) := by
  unfold Inbound.serve
  split
  · exact h
  · rename_i pid n up hup
    obtain ⟨hfresh, hcached⟩ := s.inflight.processPublish_spec pid outcome sent
    dsimp only at hfresh hcached ⊢
    cases hforwarded : (s.inflight.processPublish pid outcome sent).forwarded with
    | true =>
      rw [hforwarded] at hcached
      exact h.forward hup hserving (hfresh hforwarded) hcached _
    | false =>
      rw [hforwarded] at hcached
      refine h.drop hup hserving (fun hgoesOn x _ hx _ => ?_) _
      rwa [hcached hgoesOn]
  · rename_i pid n up hup
    refine h.drop hup hserving (fun _ x hx hmem hagain => ?_) _
    exact Finset.mem_erase_of_ne_of_mem (fun hpid => h.not_again hup hx hpid hagain) hmem

theorem Inv.exec (h : Inv s) (a : Action) (ha : s.Settled a) : Inv (s.exec a) := by
  cases a with
  | publish pid =>
    rw [Inbound.exec]
    split_ifs
    exacts [h.clientPublish pid, h]
  | release pid =>
    rw [Inbound.exec]
    split_ifs
    exacts [h.clientRelease pid, h]
  | serve outcome sent =>
    rw [Inbound.exec]
    split_ifs with hserving
    exacts [h.serve hserving outcome sent, h]
  | receive =>
    rw [Inbound.exec]
    split_ifs
    exacts [h.clientReceive, h]
  | lose => exact ⟨h.nodup, h.sorted, h.sent, h.known, h.later, h.cached⟩
  | reconnect =>
    rw [Inbound.exec]
    split_ifs
    · exact h
    · exact {
        nodup := h.nodup
        sorted := .nil
        sent := nofun
        known := h.known
        later := nofun
        cached := fun _ x hx hagain => hagain.elim nofun fun he => absurd he (ha x hx) }

/-- If the client has the PUBREC of everything that was forwarded whenever it comes back, the message
of every exchange is forwarded at most once. -/
theorem forwarded_once (maxInflight : UInt16) (actions : List Action)
    (h : Along exec Settled (init maxInflight) actions) :
    (run (init maxInflight) actions).forwarded.Nodup :=
  (h.invariant (fun _ a ha hinv => hinv.exec a ha) (inv_init maxInflight)).nodup

/-- The PUBLISH is sent twice, the PUBREC is received before the connection is lost, and the PUBREL is
sent over the next one. -/
theorem forwarded_once_released :
    (run (init 16) [.publish ⟨1, by decide⟩, .publish ⟨1, by decide⟩, .serve .forwarded true,
      .serve .forwarded true, .receive, .lose, .reconnect, .release ⟨1, by decide⟩,
      .serve .forwarded true, .receive, .publish ⟨1, by decide⟩,
      .serve .forwarded true]).forwarded.Nodup :=
  forwarded_once 16 _ (by decide +kernel)

/-- The connection is lost before the PUBREC reaches the client, and the message is forwarded again
over the next one. -/
theorem forwarded_twice :
    (run (init 16) [.publish ⟨1, by decide⟩, .serve .forwarded true, .lose, .reconnect,
      .publish ⟨1, by decide⟩, .serve .forwarded true]).forwarded =
        [(⟨1, by decide⟩, 0), (⟨1, by decide⟩, 0)] := by
  decide +kernel

end Inbound

end FerroMq
