import FerroMq.Broadcast.Kick
import FerroMq.Lib.History

/-!
# Handshakes of one client in a broadcast cluster

A handshake takes the lock of the client at its node, kicks the session there or sends a `Message::Kick` to all
other nodes, which refuse it while their own lock is held.  It goes on as soon as one node has answered, or when
all have refused: two handshakes can refuse each other (`two_sessions`).  Had it waited for every node, there
would never be two sessions (`atMostOne_run`).
-/

namespace FerroMq

open Lib
open Function (update update_self update_of_ne)

/-! ## The model -/

inductive LockHolder (η : Type)
  | handshake (h : η)
  /-- The `Kick` that a handshake has sent. -/
  | kick (h : η)
  deriving DecidableEq

/-- How far a handshake at a node has got. -/
inductive HandshakePhase (ν : Type)
  | idle
  | locked (node : ν)
  | waiting (node : ν)
  | ready (node : ν)
  | connected (node : ν)
  | finished
  deriving DecidableEq

def HandshakePhase.node {ν : Type} : HandshakePhase ν → Option ν
  | .idle | .finished => none
  | .locked node | .waiting node | .ready node | .connected node => some node

def HandshakePhase.Fresh {ν : Type} : HandshakePhase ν → Prop
  | .idle | .locked _ => True
  | .waiting _ | .ready _ | .connected _ | .finished => False

/-- What has become of the `Kick` for a node. -/
inductive KickRequest
  | unsent
  | sent
  | handling
  | carriedOut
  | failed
  deriving DecidableEq

/-- The nodes `ν` and the handshakes `η` of a client. -/
structure Handshakes (ν η ι : Type) where
  lock : ν → Option (LockHolder η)
  session : ν → Option (Peer ι)
  phase : η → HandshakePhase ν
  request : η → ν → KickRequest

namespace Handshakes

inductive Action (ν η ι : Type)
  | tryLock (h : η) (node : ν)
  | kickLocal (h : η) (cleanStart : Bool)
  /-- The `Kick` reaches a node. -/
  | receive (h : η) (node : ν)
  | handle (h : η) (node : ν) (cleanStart : Bool)
  /-- The `Kick` does not reach a node. -/
  | fail (h : η) (node : ν)
  | goOn (h : η)
  | set (h : η) (peer : Peer ι)
  | release (h : η)
  /-- The handshake ends with an error. -/
  | abort (h : η)
  /-- The session at a node ends. -/
  | leave (node : ν)
  /-- Something else happens to the session at a node. -/
  | change (node : ν) (peer : Peer ι)

variable {ν η ι : Type}

section Steps

variable [DecidableEq ν] [DecidableEq η]

def finish (s : Handshakes ν η ι) (h : η) (node : ν) : Handshakes ν η ι :=
  { s with
    lock := Function.update s.lock node none
    phase := Function.update s.phase h .finished }

def withRequest (s : Handshakes ν η ι) (h : η) (node : ν) (r : KickRequest) : Handshakes ν η ι :=
  { s with request := Function.update s.request h (Function.update (s.request h) node r) }

def execKickLocal (s : Handshakes ν η ι) (h : η) (cleanStart : Bool) (node : ν) : Handshakes ν η ι :=
  match LockEntry.kick cleanStart cleanStart (s.session node) with
  | (.error _, _) => s.finish h node
  | (.ok (.exist _), peer) =>
    { s with
      session := Function.update s.session node peer
      phase := Function.update s.phase h (.ready node) }
  | (.ok .notExist, peer) =>
    { s with
      session := Function.update s.session node peer
      phase := Function.update s.phase h (.waiting node)
      request := Function.update s.request h fun x => if x = node then .unsent else .sent }

def execReceive (s : Handshakes ν η ι) (h : η) (node : ν) : Handshakes ν η ι :=
  if s.request h node = .sent then
    if s.lock node = none then
      { s.withRequest h node .handling with
        lock := Function.update s.lock node (some (.kick h)) }
    else s.withRequest h node .failed
  else s

def execHandle (s : Handshakes ν η ι) (h : η) (node : ν) (cleanStart : Bool) : Handshakes ν η ι :=
  if s.lock node = some (.kick h) then
    let s' := { s with lock := Function.update s.lock node none }
    match LockEntry.kick cleanStart true (s.session node) with
    | (.error _, _) => s'.withRequest h node .failed
    | (.ok _, peer) =>
      { s'.withRequest h node .carriedOut with session := Function.update s.session node peer }
  else s

/-- A node has answered, or all have failed. -/
def Answered (s : Handshakes ν η ι) (h : η) (node : ν) : Prop :=
  (∃ x, s.request h x = .carriedOut) ∨ ∀ x, x ≠ node → s.request h x = .failed

instance [Fintype ν] (s : Handshakes ν η ι) (h : η) (node : ν) : Decidable (s.Answered h node) :=
  inferInstanceAs (Decidable
    ((∃ x, s.request h x = .carriedOut) ∨ ∀ x, x ≠ node → s.request h x = .failed))

variable [Fintype ν]

def exec (s : Handshakes ν η ι) : Action ν η ι → Handshakes ν η ι
  | .tryLock h node =>
    if s.phase h = .idle then
      if s.lock node = none then
        { s with
          lock := Function.update s.lock node (some (.handshake h))
          phase := Function.update s.phase h (.locked node) }
      else { s with phase := Function.update s.phase h .finished }
    else s
  | .kickLocal h cleanStart =>
    match s.phase h with
    | .locked node => s.execKickLocal h cleanStart node
    | _ => s
  | .receive h node => s.execReceive h node
  | .handle h node cleanStart => s.execHandle h node cleanStart
  | .fail h node => if s.request h node = .sent then s.withRequest h node .failed else s
  | .goOn h =>
    match s.phase h with
    | .waiting node =>
      if s.Answered h node then { s with phase := Function.update s.phase h (.ready node) } else s
    | _ => s
  | .set h peer =>
    match s.phase h with
    | .ready node =>
      { s with
        session := Function.update s.session node (some peer)
        phase := Function.update s.phase h (.connected node) }
    | _ => s
  | .release h =>
    match s.phase h with
    | .connected node => s.finish h node
    | _ => s
  | .abort h =>
    match s.phase h with
    | .locked node | .waiting node | .ready node => s.finish h node
    | _ => s
  | .leave node => { s with session := Function.update s.session node none }
  | .change node peer =>
    { s with session := Function.update s.session node ((s.session node).map fun _ => peer) }

def run (s : Handshakes ν η ι) (actions : List (Action ν η ι)) : Handshakes ν η ι :=
  actions.foldl exec s

end Steps

/-- At most one node has a session of the client. -/
def AtMostOne (s : Handshakes ν η ι) : Prop :=
  ∀ x y, s.session x ≠ none → s.session y ≠ none → x = y

/-- No handshake has begun, and at most one node has a session. -/
structure Initial (s : Handshakes ν η ι) : Prop where
  lock : ∀ x, s.lock x = none
  phase : ∀ h, s.phase h = .idle
  request : ∀ h x, s.request h x = .unsent
  atMostOne : s.AtMostOne

/-- A handshake that waits goes on when all other nodes have carried out the `Kick`. -/
def Heeds (s : Handshakes ν η ι) : Action ν η ι → Prop
  | .goOn h => ∀ node, s.phase h = .waiting node → ∀ x, x ≠ node → s.request h x = .carriedOut
  | _ => True

/-! ## The invariant -/

variable {s : Handshakes ν η ι} {h : η} {node : ν}

/-- Nothing is in the way of a session at the node. -/
structure Clear (s : Handshakes ν η ι) (node : ν) : Prop where
  session : ∀ x, x ≠ node → s.session x = none
  waiting : ∀ h x, s.phase h = .waiting x → s.request h node ≠ .carriedOut
  ready : ∀ h x, s.phase h = .ready x → x = node

structure Inv (s : Handshakes ν η ι) : Prop where
  lock : ∀ h x, (s.phase h).node = some x → s.lock x = some (.handshake h)
  fresh : ∀ h x, (s.phase h).Fresh → s.request h x = .unsent ∧ s.lock x ≠ some (.kick h)
  carriedOut : ∀ h x y, s.phase h = .waiting x → s.request h y = .carriedOut → s.session y = none
  /-- Of two handshakes that wait, at most one has kicked the other's node. -/
  apart : ∀ h x h' y, s.phase h = .waiting x → s.phase h' = .waiting y →
    s.request h y = .carriedOut → s.request h' x ≠ .carriedOut
  ready : ∀ h x, s.phase h = .ready x → s.Clear x
  atMostOne : s.AtMostOne

theorem Initial.inv (hs : s.Initial) : s.Inv where
  lock h x hx := by
    rw [hs.phase h] at hx
    exact nomatch hx
  fresh h x _ := ⟨hs.request h x, by rw [hs.lock x]; exact nofun⟩
  carriedOut h x y hx _ := by
    rw [hs.phase h] at hx
    exact nomatch hx
  apart h x _ _ hx _ _ := by
    rw [hs.phase h] at hx
    exact nomatch hx
  ready h x hx := by
    rw [hs.phase h] at hx
    exact nomatch hx
  atMostOne := hs.atMostOne

theorem Inv.eq_of_node (hs : s.Inv) {h h' : η} {x : ν} (hx : (s.phase h).node = some x)
    (hx' : (s.phase h').node = some x) : h = h' := by
  have heq := (hs.lock h x hx).symm.trans (hs.lock h' x hx')
  exact LockHolder.handshake.inj (Option.some.inj heq)

theorem Inv.not_fresh (hs : s.Inv) (hsent : s.request h node = .sent) : ¬ (s.phase h).Fresh := by
  intro hfresh
  rw [(hs.fresh h node hfresh).1] at hsent
  exact nomatch hsent

/-! ## What the steps keep -/

theorem eq_of_update {α β : Type} [DecidableEq α] {f : α → β} {a a' : α} {b b' : β}
    (h : update f a b a' = b') (hne : b ≠ b') : f a' = b' := by
  by_cases ha : a' = a
  · rw [ha, update_self] at h
    exact absurd h hne
  · rwa [update_of_ne ha] at h

theorem update_none {α β : Type} [DecidableEq α] {f : α → Option β} {a a' : α} (h : f a' = none) :
    update f a none a' = none := by
  by_cases ha : a' = a
  · rw [ha, update_self]
  · rw [update_of_ne ha, h]

theorem Inv.shrink (hs : s.Inv) {session : ν → Option (Peer ι)}
    (hsession : ∀ x, s.session x = none → session x = none) : Inv { s with session } where
  lock := hs.lock
  fresh := hs.fresh
  carriedOut h x y hx hy := hsession y (hs.carriedOut h x y hx hy)
  apart := hs.apart
  ready h x hx :=
    have hclear := hs.ready h x hx
    ⟨fun y hy => hsession y (hclear.session y hy), hclear.waiting, hclear.ready⟩
  atMostOne x y hx hy :=
    hs.atMostOne x y (fun hnone => hx (hsession x hnone)) fun hnone => hy (hsession y hnone)

theorem Inv.withLock [DecidableEq ν] (hs : s.Inv) {l : Option (LockHolder η)}
    (hfree : ∀ h', (s.phase h').node ≠ some node)
    (hl : ∀ h', l = some (.kick h') → ¬ (s.phase h').Fresh) :
    Inv { s with lock := update s.lock node l } := by
  refine ⟨fun h' x hx => ?_, fun h' x hfresh => ?_, hs.carriedOut, hs.apart, fun h' x hx => ?_,
    hs.atMostOne⟩
  · dsimp only at hx ⊢
    rw [update_of_ne, hs.lock h' x hx]
    rintro rfl
    exact hfree h' hx
  · have hold := hs.fresh h' x hfresh
    refine ⟨hold.1, ?_⟩
    dsimp only
    by_cases hx : x = node
    · rw [hx, update_self]
      exact fun hkick => hl h' hkick hfresh
    · rw [update_of_ne hx]
      exact hold.2
  · have hclear := hs.ready h' x hx
    exact ⟨hclear.session, hclear.waiting, hclear.ready⟩

section Steps

variable [DecidableEq η]

variable {phase : HandshakePhase ν} {lock : ν → Option (LockHolder η)}

/-- A handshake gets into another phase, and locks change hands, but not to one that handles a
`Kick`. -/
theorem Inv.lock_withPhase (hs : s.Inv) (hself : ∀ x, phase.node = some x → lock x = some (.handshake h))
    (hother : ∀ h' x, h' ≠ h → s.lock x = some (.handshake h') → lock x = some (.handshake h')) :
    ∀ h' x, (update s.phase h phase h').node = some x → lock x = some (.handshake h') := by
  intro h' x hx
  by_cases hh : h' = h
  · rw [hh, update_self] at hx
    rw [hh]
    exact hself x hx
  · rw [update_of_ne hh] at hx
    exact hother h' x hh (hs.lock h' x hx)

theorem Inv.fresh_withPhase (hs : s.Inv) (hphase : phase.Fresh → (s.phase h).Fresh)
    (hkick : ∀ h' x, lock x = some (.kick h') → s.lock x = some (.kick h')) :
    ∀ h' x, (update s.phase h phase h').Fresh →
      s.request h' x = .unsent ∧ lock x ≠ some (.kick h') := by
  intro h' x hfresh
  have hold : (s.phase h').Fresh := by
    by_cases hh : h' = h
    · rw [hh, update_self] at hfresh
      rw [hh]
      exact hphase hfresh
    · rwa [update_of_ne hh] at hfresh
  exact ⟨(hs.fresh h' x hold).1, fun heq => (hs.fresh h' x hold).2 (hkick h' x heq)⟩

theorem Inv.withPhase (hs : s.Inv) (hwaiting : ∀ x, phase ≠ .waiting x) (hready : ∀ x, phase ≠ .ready x)
    (hphase : phase.Fresh → (s.phase h).Fresh) (hself : ∀ x, phase.node = some x → lock x = some (.handshake h))
    (hother : ∀ h' x, h' ≠ h → s.lock x = some (.handshake h') → lock x = some (.handshake h'))
    (hkick : ∀ h' x, lock x = some (.kick h') → s.lock x = some (.kick h')) :
    Inv { s with phase := update s.phase h phase, lock } where
  lock := hs.lock_withPhase hself hother
  fresh := hs.fresh_withPhase hphase hkick
  carriedOut h' x y hx hy := hs.carriedOut h' x y (eq_of_update hx (hwaiting x)) hy
  apart h₁ x h₂ y hx hy :=
    hs.apart h₁ x h₂ y (eq_of_update hx (hwaiting x)) (eq_of_update hy (hwaiting y))
  ready h' x hx :=
    have hclear := hs.ready h' x (eq_of_update hx (hready x))
    ⟨hclear.session, fun h₁ y hy => hclear.waiting h₁ y (eq_of_update hy (hwaiting y)),
      fun h₁ y hy => hclear.ready h₁ y (eq_of_update hy (hready y))⟩
  atMostOne := hs.atMostOne

theorem Inv.refuse (hs : s.Inv) : Inv { s with phase := update s.phase h .finished } :=
  hs.withPhase nofun nofun nofun nofun (fun _ _ _ => id) fun _ _ => id

theorem Inv.becomeReady (hs : s.Inv) (hnode : (s.phase h).node = some node) (hclear : s.Clear node) :
    Inv { s with phase := update s.phase h (.ready node) } := by
  have hready {h' : η} {x : ν} (hx : update s.phase h (.ready node) h' = .ready x) :
      x = node := by
    by_cases hh : h' = h
    · rw [hh, update_self] at hx
      exact (HandshakePhase.ready.inj hx).symm
    · rw [update_of_ne hh] at hx
      exact hclear.ready h' x hx
  refine ⟨hs.lock_withPhase (fun x hx => hs.lock h x (hnode.trans hx)) fun _ _ _ => id,
    hs.fresh_withPhase nofun fun _ _ => id,
    fun h' x y hx => hs.carriedOut h' x y (eq_of_update hx nofun), fun h₁ x h₂ y hx hy =>
      hs.apart h₁ x h₂ y (eq_of_update hx nofun) (eq_of_update hy nofun), fun h' x hx => ?_,
    hs.atMostOne⟩
  obtain rfl := hready hx
  exact ⟨hclear.session, fun h₁ y hy => hclear.waiting h₁ y (eq_of_update hy nofun),
    fun h₁ y hy => hready hy⟩

variable [DecidableEq ν]

theorem Inv.finish (hs : s.Inv) (hnode : (s.phase h).node = some node) : Inv (s.finish h node) := by
  have hlock := hs.lock h node hnode
  refine hs.withPhase nofun nofun nofun nofun (fun h' x hh hx => ?_) fun _ _ hx => eq_of_update hx nofun
  rw [update_of_ne, hx]
  rintro rfl
  exact hh (LockHolder.handshake.inj (Option.some.inj (hx.symm.trans hlock)))

theorem Inv.tryLock (hs : s.Inv) (hidle : s.phase h = .idle) (hfree : s.lock node = none) :
    Inv { s with
      lock := update s.lock node (some (.handshake h))
      phase := update s.phase h (.locked node) } := by
  have hfresh : (s.phase h).Fresh := by
    rw [hidle]
    trivial
  refine hs.withPhase nofun nofun (fun _ => hfresh) (fun x hx => ?_) (fun h' x _ hx => ?_)
    fun _ _ hx => eq_of_update hx nofun
  · obtain rfl : node = x := Option.some.inj hx
    rw [update_self]
  · rw [update_of_ne, hx]
    rintro rfl
    exact nomatch hx.symm.trans hfree

theorem Inv.wait (hs : s.Inv) (hlocked : s.phase h = .locked node) :
    Inv { s with
      phase := update s.phase h (.waiting node)
      request := update s.request h fun x => if x = node then .unsent else .sent } := by
  have hsent (x : ν) : (if x = node then KickRequest.unsent else .sent) ≠ .carriedOut := by
    split_ifs <;> exact nofun
  -- what is carried out was sent by another handshake
  have hother {h' : η} {x : ν} (hx : update s.request h
      (fun x => if x = node then .unsent else .sent) h' x = .carriedOut) :
      h' ≠ h ∧ s.request h' x = .carriedOut := by
    by_cases hh : h' = h
    · rw [hh, update_self] at hx
      exact absurd hx (hsent x)
    · rw [update_of_ne hh] at hx
      exact ⟨hh, hx⟩
  refine ⟨fun h' x hx => ?_, fun h' x hfresh => ?_, fun h' x y hx hy => ?_,
    fun h₁ x h₂ y hx hy h₁y h₂x => ?_, fun h' x hx => ?_, hs.atMostOne⟩
  · refine hs.lock_withPhase (fun x hx => hs.lock h x ?_) (fun _ _ _ => id) h' x hx
    rw [hlocked]
    exact hx
  · dsimp only at hfresh ⊢
    by_cases hh : h' = h
    · rw [hh, update_self] at hfresh
      exact hfresh.elim
    · rw [update_of_ne hh] at hfresh ⊢
      exact hs.fresh h' x hfresh
  · obtain ⟨hh, hy'⟩ := hother hy
    dsimp only at hx
    rw [update_of_ne hh] at hx
    exact hs.carriedOut h' x y hx hy'
  · obtain ⟨hh₁, h₁y'⟩ := hother h₁y
    obtain ⟨hh₂, h₂x'⟩ := hother h₂x
    dsimp only at hx hy
    rw [update_of_ne hh₁] at hx
    rw [update_of_ne hh₂] at hy
    exact hs.apart h₁ x h₂ y hx hy h₁y' h₂x'
  · have hclear := hs.ready h' x (eq_of_update hx nofun)
    refine ⟨hclear.session, fun h₁ y hy hx' => ?_,
      fun h₁ y hy => hclear.ready h₁ y (eq_of_update hy nofun)⟩
    obtain ⟨hh, hx''⟩ := hother hx'
    dsimp only at hy
    rw [update_of_ne hh] at hy
    exact hclear.waiting h₁ y hy hx''

theorem Inv.set (hs : s.Inv) (hready : s.phase h = .ready node) (peer : Peer ι) :
    Inv { s with
      session := update s.session node (some peer)
      phase := update s.phase h (.connected node) } := by
  have hclear := hs.ready h node hready
  have hsession {x : ν} (hx : update s.session node (some peer) x ≠ none) : x = node := by
    by_contra hne
    rw [update_of_ne hne] at hx
    exact hx (hclear.session x hne)
  have hs' : Inv { s with phase := update s.phase h (.connected node) } := by
    refine hs.withPhase nofun nofun nofun (fun x hx => hs.lock h x ?_) (fun _ _ _ => id) fun _ _ => id
    rw [hready]
    exact hx
  refine ⟨hs'.lock, hs'.fresh, fun h' x y hx hy => ?_, hs'.apart, fun h' x hx => ?_,
    fun x y hx hy => (hsession hx).trans (hsession hy).symm⟩
  · by_contra hne
    obtain rfl := hsession hne
    exact hclear.waiting h' x (eq_of_update hx nofun) hy
  · -- nobody else is ready, at this node or at another one
    have hx' : s.phase h' = .ready x := eq_of_update hx nofun
    obtain rfl := hclear.ready h' x hx'
    have hh : h' = h := hs.eq_of_node (by rw [hx']; rfl) (by rw [hready]; rfl)
    dsimp only at hx
    rw [hh, update_self] at hx
    exact nomatch hx

/-! ## The `Kick` at another node -/

theorem withRequest_eq {h' : η} {x y : ν} {r r' : KickRequest}
    (hy : (s.withRequest h x r).request h' y = r') :
    h' = h ∧ y = x ∧ r = r' ∨ s.request h' y = r' := by
  dsimp only [withRequest] at hy
  by_cases hh : h' = h
  · subst hh
    rw [update_self] at hy
    by_cases hx : y = x
    · rw [hx, update_self] at hy
      exact Or.inl ⟨rfl, hx, hy⟩
    · rw [update_of_ne hx] at hy
      exact Or.inr hy
  · rw [update_of_ne hh] at hy
    exact Or.inr hy

/-- Something becomes of the `Kick`.  If it is carried out, no session is left, and no handshake has the
lock. -/
theorem Inv.withRequest (hs : s.Inv) {r : KickRequest} (hsent : ¬ (s.phase h).Fresh)
    (hr : r = .carriedOut → s.session node = none ∧ ∀ h', (s.phase h').node ≠ some node) :
    Inv (s.withRequest h node r) := by
  refine ⟨hs.lock, fun h' x hfresh => ?_, fun h' x y hx hy => ?_, fun h₁ x h₂ y hx hy h₁y h₂x => ?_,
    fun h' x hx => ?_, hs.atMostOne⟩
  · have hold := hs.fresh h' x hfresh
    refine ⟨?_, hold.2⟩
    have hne : h' ≠ h := by
      rintro rfl
      exact hsent hfresh
    dsimp only [Handshakes.withRequest]
    rw [update_of_ne hne]
    exact hold.1
  · rcases withRequest_eq hy with ⟨-, rfl, hr'⟩ | hy'
    · exact (hr hr').1
    · exact hs.carriedOut h' x y hx hy'
  · rcases withRequest_eq h₁y with ⟨-, rfl, hr'⟩ | h₁y'
    · exact (hr hr').2 h₂ (congrArg HandshakePhase.node hy)
    · rcases withRequest_eq h₂x with ⟨-, rfl, hr'⟩ | h₂x'
      · exact (hr hr').2 h₁ (congrArg HandshakePhase.node hx)
      · exact hs.apart h₁ x h₂ y hx hy h₁y' h₂x'
  · have hclear := hs.ready h' x hx
    refine ⟨hclear.session, fun h₁ y hy hx' => ?_, hclear.ready⟩
    rcases withRequest_eq hx' with ⟨-, rfl, hr'⟩ | hx''
    · exact (hr hr').2 h' (congrArg HandshakePhase.node hx)
    · exact hclear.waiting h₁ y hy hx''

/-! ## The steps -/

theorem Inv.kickLocal (hs : s.Inv) (hlocked : s.phase h = .locked node) (cleanStart : Bool) :
    Inv (s.execKickLocal h cleanStart node) := by
  rw [execKickLocal]
  rcases hkick : LockEntry.kick cleanStart cleanStart (s.session node) with ⟨_ | o, peer⟩
  · exact hs.finish (by rw [hlocked]; rfl)
  have hok : (LockEntry.kick cleanStart cleanStart (s.session node)).1 = .ok o := by rw [hkick]
  obtain rfl : peer = none := by
    have hnone := LockEntry.kick_ok hok
    rwa [hkick] at hnone
  have hshrink (x : ν) (hx : s.session x = none) : update s.session node none x = none :=
    update_none hx
  cases o with
  | exist info =>
    have hsome : s.session node ≠ none := fun hnone => by
      rw [hnone] at hok
      exact nomatch hok
    -- the session was here, so there is none elsewhere, and nobody has kicked it
    have hclear : s.Clear node := by
      refine ⟨fun x hx => ?_, fun h' x hx hkicked => hsome (hs.carriedOut h' x node hx hkicked),
        fun h' x hx => ?_⟩
      · by_contra hne
        exact hx (hs.atMostOne x node hne hsome)
      · by_contra hne
        exact hsome ((hs.ready h' x hx).session node (Ne.symm hne))
    exact (hs.becomeReady (by rw [hlocked]; rfl) hclear).shrink hshrink
  | notExist => exact (hs.wait hlocked).shrink hshrink

theorem Inv.receive (hs : s.Inv) (h : η) (node : ν) : Inv (s.execReceive h node) := by
  rw [execReceive]
  split_ifs with hsent hfree
  · have hnobody (h' : η) : (s.phase h').node ≠ some node := fun hnode => by
      rw [hs.lock h' node hnode] at hfree
      exact nomatch hfree
    have hrequest : Inv (s.withRequest h node .handling) :=
      hs.withRequest (hs.not_fresh hsent) nofun
    refine hrequest.withLock hnobody fun h' hkick => ?_
    obtain rfl : h = h' := LockHolder.kick.inj (Option.some.inj hkick)
    exact hs.not_fresh hsent
  · exact hs.withRequest (hs.not_fresh hsent) nofun
  · exact hs

theorem Inv.handle (hs : s.Inv) (h : η) (node : ν) (cleanStart : Bool) :
    Inv (s.execHandle h node cleanStart) := by
  rw [execHandle]
  split_ifs with hlock
  · have hnobody (h' : η) : (s.phase h').node ≠ some node := fun hnode => by
      rw [hs.lock h' node hnode] at hlock
      exact nomatch hlock
    have hsent : ¬ (s.phase h).Fresh := fun hfresh => (hs.fresh h node hfresh).2 hlock
    have hunlock : Inv { s with lock := update s.lock node none } :=
      hs.withLock hnobody nofun
    rcases hkick : LockEntry.kick cleanStart true (s.session node) with ⟨_ | o, peer⟩
    · exact hunlock.withRequest hsent nofun
    · obtain rfl : peer = none := by
        have hnone := LockEntry.kick_ok (congrArg Prod.fst hkick)
        rwa [hkick] at hnone
      have hempty : Inv { s with
          lock := update s.lock node none
          session := update s.session node none } :=
        hunlock.shrink fun x hx => update_none hx
      exact hempty.withRequest hsent fun _ => ⟨update_self _ _ _, hnobody⟩
  · exact hs

theorem Inv.goOn (hs : s.Inv) (hwaiting : s.phase h = .waiting node)
    (hall : ∀ x, x ≠ node → s.request h x = .carriedOut) :
    Inv { s with phase := update s.phase h (.ready node) } := by
  refine hs.becomeReady (by rw [hwaiting]; rfl) ⟨fun x hx => ?_, fun h' x hx hkicked => ?_,
    fun h' x hx => ?_⟩
  · exact hs.carriedOut h node x hwaiting (hall x hx)
  · have hne : x ≠ node := by
      rintro rfl
      obtain rfl : h' = h := hs.eq_of_node (congrArg HandshakePhase.node hx)
        (congrArg HandshakePhase.node hwaiting)
      exact hs.apart h' x h' x hx hx hkicked hkicked
    exact hs.apart h' x h node hx hwaiting hkicked (hall x hne)
  · by_contra hne
    exact (hs.ready h' x hx).waiting h node hwaiting (hall x hne)

variable [Fintype ν]

theorem Inv.exec (hs : s.Inv) (a : Action ν η ι) (ha : s.Heeds a) : Inv (s.exec a) := by
  cases a with
  | tryLock h node =>
    rw [Handshakes.exec]
    split_ifs with hidle hfree
    · exact hs.tryLock hidle hfree
    · exact hs.refuse
    · exact hs
  | kickLocal h cleanStart =>
    rw [Handshakes.exec]
    split
    · exact hs.kickLocal ‹_› cleanStart
    · exact hs
  | receive h node => exact hs.receive h node
  | handle h node cleanStart => exact hs.handle h node cleanStart
  | fail h node =>
    rw [Handshakes.exec]
    split_ifs with hsent
    · exact hs.withRequest (hs.not_fresh hsent) nofun
    · exact hs
  | goOn h =>
    rw [Handshakes.exec]
    split
    · split_ifs
      · exact hs.goOn ‹_› (ha _ ‹_›)
      · exact hs
    · exact hs
  | set h peer =>
    rw [Handshakes.exec]
    split
    · exact hs.set ‹_› peer
    · exact hs
  | release h =>
    rw [Handshakes.exec]
    split
    · exact hs.finish (congrArg HandshakePhase.node ‹_›)
    · exact hs
  | abort h =>
    rw [Handshakes.exec]
    split
    · exact hs.finish (congrArg HandshakePhase.node ‹_›)
    · exact hs.finish (congrArg HandshakePhase.node ‹_›)
    · exact hs.finish (congrArg HandshakePhase.node ‹_›)
    · exact hs
  | leave node => exact hs.shrink fun x hx => update_none hx
  | change node peer =>
    refine hs.shrink fun x hx => ?_
    by_cases hnode : x = node
    · rw [hnode, update_self, ← hnode, hx, Option.map_none]
    · rw [update_of_ne hnode, hx]

/-- If every handshake that waits goes on only when all other nodes have carried out its `Kick`, there is
never more than one session of the client. -/
theorem atMostOne_run (s : Handshakes ν η ι) (hs : s.Initial) (actions : List (Action ν η ι))
    (h : Along exec Heeds s actions) : (s.run actions).AtMostOne :=
  (h.invariant (fun _ a ha hinv => Inv.exec hinv a ha) hs.inv).atMostOne

end Steps

def init (n m : ℕ) : Handshakes (Fin n) (Fin m) ι where
  lock _ := none
  session _ := none
  phase _ := .idle
  request _ _ := .unsent

theorem initial_init (n m : ℕ) : (init (ι := ι) n m).Initial :=
  ⟨fun _ => rfl, fun _ => rfl, fun _ _ => rfl, fun _ _ h => absurd rfl h⟩

instance {ν η ι : Type} [DecidableEq ν] [Fintype ν] (s : Handshakes ν η ι) : DecidablePred s.Heeds
  | .goOn h => inferInstanceAs (Decidable
      (∀ node, s.phase h = .waiting node → ∀ x, x ≠ node → s.request h x = .carriedOut))
  | .tryLock .. | .kickLocal .. | .receive .. | .handle .. | .fail .. | .set .. | .release _ |
    .abort _ | .leave _ | .change .. => isTrue trivial

/-- Two handshakes, one after the other. -/
theorem atMostOne_run_sequential :
    ((init 2 2 : Handshakes (Fin 2) (Fin 2) ℕ).run [
      .tryLock 0 0, .kickLocal 0 false, .receive 0 1, .handle 0 1 false, .goOn 0,
      .set 0 ⟨false, .kicked, true, none⟩, .release 0,
      .tryLock 1 1, .kickLocal 1 false, .receive 1 0, .handle 1 0 false, .goOn 1,
      .set 1 ⟨false, .kicked, true, none⟩, .release 1]).AtMostOne :=
  atMostOne_run _ (initial_init 2 2) _ (by decide +kernel)

/-- Two handshakes hold the locks of their nodes, so that each refuses the `Kick` of the other one. -/
theorem two_sessions :
    let s := (init 2 2 : Handshakes (Fin 2) (Fin 2) ℕ).run [
      .tryLock 0 0, .tryLock 1 1, .kickLocal 0 false, .kickLocal 1 false, .receive 0 1, .receive 1 0,
      .goOn 0, .goOn 1, .set 0 ⟨false, .kicked, true, none⟩, .set 1 ⟨false, .kicked, true, none⟩,
      .release 0, .release 1]
    (∀ h, s.phase h = .finished) ∧ ¬ s.AtMostOne := by
  refine ⟨by decide +kernel, fun h => ?_⟩
  have heq := h 0 1 (by decide +kernel) (by decide +kernel)
  exact absurd heq (by decide)

end Handshakes

end FerroMq
