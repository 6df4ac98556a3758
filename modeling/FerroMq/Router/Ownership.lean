import FerroMq.Router.Cluster

/-!
# The owner of a handshake lock

A session keeps the lock of its client until it is connected or terminated, or the lock has timed out.
`Connected` looks only at the time at which the session was created, so a session created at the same time or
later takes the lock over (`taken_over`).  `guarded_iff` says that nothing else breaks a lock.
-/

namespace FerroMq

open Lib Option

/-- A router, and for every client the session that was granted the lock last and is neither connected
nor terminated, with the time of the grant. -/
structure Ownership where
  router : ClusterRouter
  grants : ClientId → Option (Id × TimestampMillis) := fun _ => none

namespace Ownership

variable (tryLockTimeout : TimestampMillis)

def reply (s : Ownership) (e : Message × Clock) : Except TopicError Reply :=
  (s.router.apply tryLockTimeout e.2 e.1).1

def granted (s : Ownership) (e : Message × Clock) : ClientId → Option (Id × TimestampMillis) :=
  match e.1, s.reply tryLockTimeout e with
  | .handshakeTryLock id, .ok (.message (.handshakeTryLock _)) =>
    Function.update s.grants id.clientId (some (id, e.2.record))
  | .connected id, _ | .sessionTerminated id, _ =>
    if (s.grants id.clientId).map Prod.fst = some id then Function.update s.grants id.clientId none
    else s.grants
  | _, _ => s.grants

def step (s : Ownership) (e : Message × Clock) : Ownership where
  router := (s.router.apply tryLockTimeout e.2 e.1).2
  grants := s.granted tryLockTimeout e

/-- The session has the lock of the client at this time. -/
def Owns (s : Ownership) (now : Clock) (c : ClientId) (a : Id) : Prop :=
  ∃ time, s.grants c = some (a, time) ∧ now.test < time + tryLockTimeout

/-- A lock is respected by a message. -/
structure Guarded (s : Ownership) (e : Message × Clock) : Prop where
  /-- Nobody else gets the lock. -/
  refuses : ∀ a id, s.Owns tryLockTimeout e.2 id.clientId a → e.1 = .handshakeTryLock id →
    s.reply tryLockTimeout e = .ok (.message (.error "Handshake try lock failed"))
  /-- Unless it is terminated, the session stays the owner of the entry. -/
  stays : ∀ c a, s.Owns tryLockTimeout e.2 c a → e.1 ≠ .sessionTerminated a →
    ((s.step tryLockTimeout e).router.clientStates.lookup c).map ClientStatus.id = some a
  /-- A session that is not the owner of the entry does not become it by `Connected`. -/
  keeps : ∀ b status, e.1 = .connected b → s.router.clientStates.lookup b.clientId = some status →
    status.id ≠ b →
    ((s.step tryLockTimeout e).router.clientStates.lookup b.clientId).map ClientStatus.id =
      some status.id

/-- A session that is connected is the owner of the entry of its client or older than the owner. -/
def Older (s : Ownership) (e : Message × Clock) : Prop :=
  ∀ b status, e.1 = .connected b → s.router.clientStates.lookup b.clientId = some status →
    status.id = b ∨ b.createTime < status.id.createTime

/-- A session that has a grant is the owner of the entry, with the lock and the time of the grant. -/
def Recorded (s : Ownership) : Prop :=
  ∀ c a time, s.grants c = some (a, time) → ∃ online,
    s.router.clientStates.lookup c = some ⟨a, online, true, time⟩

variable {tryLockTimeout} {s : Ownership} {now : Clock}

/-! ## What a message does to the grants -/

theorem lookup_step (msg : Message) (c : ClientId) :
    (s.step tryLockTimeout (msg, now)).router.clientStates.lookup c =
      if msg.client = some c then msg.onEntry tryLockTimeout now (s.router.clientStates.lookup c)
      else s.router.clientStates.lookup c :=
  ClusterRouter.lookup_apply tryLockTimeout now s.router msg c

theorem reply_handshakeTryLock {id : Id}
    (h : (s.router.clientStates.lookup id.clientId).any
      (·.isHandshaking tryLockTimeout now) = true) :
    s.reply tryLockTimeout (.handshakeTryLock id, now) =
      .ok (.message (.error "Handshake try lock failed")) := by
  obtain ⟨status, hlookup, hlock⟩ := (any_eq_true _ _).1 h
  simp only [reply, ClusterRouter.apply, ClientStatus.tryLock, hlookup, if_pos hlock]
  rfl

theorem granted_handshakeTryLock (id : Id) :
    s.granted tryLockTimeout (.handshakeTryLock id, now) =
      if (s.router.clientStates.lookup id.clientId).any (·.isHandshaking tryLockTimeout now) then s.grants
      else Function.update s.grants id.clientId (some (id, now.record)) := by
  unfold granted
  split_ifs with h
  · rw [reply_handshakeTryLock h]
  · cases hlookup : s.router.clientStates.lookup id.clientId with
    | none => simp [reply, ClusterRouter.apply, ClientStatus.tryLock, hlookup]
    | some status =>
      rw [hlookup, any_some] at h
      simp [reply, ClusterRouter.apply, ClientStatus.tryLock, hlookup, h]

theorem granted_other {msg : Message} {c : ClientId} (h : msg.client ≠ some c) :
    s.granted tryLockTimeout (msg, now) c = s.grants c := by
  cases msg with
  | handshakeTryLock id =>
    have hne : c ≠ id.clientId := fun heq => h (congrArg some heq.symm)
    rw [granted_handshakeTryLock]
    split_ifs
    · rfl
    · exact Function.update_of_ne hne _ _
  | connected id | sessionTerminated id =>
    have hne : c ≠ id.clientId := fun heq => h (congrArg some heq.symm)
    unfold granted
    dsimp only
    split_ifs
    · exact Function.update_of_ne hne _ _
    · rfl
  | _ => rfl

theorem grants_of_ended {id a : Id} {time : TimestampMillis}
    (h : (if (s.grants id.clientId).map Prod.fst = some id
      then Function.update s.grants id.clientId none else s.grants) id.clientId = some (a, time)) :
    s.grants id.clientId = some (a, time) ∧ a ≠ id := by
  split_ifs at h with hid
  · rw [Function.update_self] at h
    exact nomatch h
  · refine ⟨h, ?_⟩
    rintro rfl
    exact hid (by rw [h]; rfl)

theorem Recorded.step (h : s.Recorded) {e : Message × Clock} (hold : s.Older e) :
    (s.step tryLockTimeout e).Recorded := by
  obtain ⟨msg, now⟩ := e
  intro c a time hgrant
  change s.granted tryLockTimeout (msg, now) c = some (a, time) at hgrant
  rw [lookup_step]
  split_ifs with hc
  swap
  · rw [granted_other hc] at hgrant
    exact h c a time hgrant
  cases msg with
  | handshakeTryLock id =>
    obtain rfl := Option.some.inj hc
    rw [granted_handshakeTryLock] at hgrant
    split_ifs at hgrant with hlock
    · obtain ⟨online, hlookup⟩ := h id.clientId a time hgrant
      rw [hlookup, any_some] at hlock
      exact ⟨online, by rw [hlookup, Message.onEntry, ClientStatus.tryLock, if_pos hlock]⟩
    · rw [Function.update_self] at hgrant
      obtain ⟨rfl, rfl⟩ := Prod.mk.inj (Option.some.inj hgrant)
      refine ⟨false, ?_⟩
      cases hlookup : s.router.clientStates.lookup id.clientId with
      | none => rfl
      | some status =>
        rw [hlookup, any_some] at hlock
        rw [Message.onEntry, ClientStatus.tryLock, if_neg hlock]
        rfl
  | connected id =>
    obtain rfl := Option.some.inj hc
    obtain ⟨hgrant, hne⟩ := grants_of_ended hgrant
    obtain ⟨online, hlookup⟩ := h id.clientId a time hgrant
    have holder := (hold id _ rfl hlookup).resolve_left hne
    exact ⟨online, by rw [hlookup, Message.onEntry, ClientStatus.connected, if_pos ⟨hne, holder⟩]⟩
  | disconnected id =>
    obtain rfl := Option.some.inj hc
    obtain ⟨online, hlookup⟩ := h id.clientId a time hgrant
    rw [hlookup, Message.onEntry, map_some, ClientStatus.disconnected]
    split_ifs
    exacts [⟨online, rfl⟩, ⟨false, rfl⟩]
  | sessionTerminated id =>
    obtain rfl := Option.some.inj hc
    obtain ⟨hgrant, hne⟩ := grants_of_ended hgrant
    obtain ⟨online, hlookup⟩ := h id.clientId a time hgrant
    refine ⟨online, ?_⟩
    rw [hlookup, Message.onEntry, filter_some, if_pos (decide_eq_true hne)]
  | _ => cases hc

/-! ## What breaks a lock -/

theorem Owns.lookup (h : s.Recorded) {c : ClientId} {a : Id} (ha : s.Owns tryLockTimeout now c a) :
    ∃ status, s.router.clientStates.lookup c = some status ∧ status.id = a ∧
      status.isHandshaking tryLockTimeout now = true := by
  obtain ⟨time, hgrant, htime⟩ := ha
  obtain ⟨online, hlookup⟩ := h c a time hgrant
  exact ⟨_, hlookup, rfl, decide_eq_true htime⟩

theorem onEntry_connected {b : Id} {status : ClientStatus} (hne : status.id ≠ b) :
    ((Message.connected b).onEntry tryLockTimeout now (some status)).map ClientStatus.id =
      some status.id ↔ b.createTime < status.id.createTime := by
  rw [Message.onEntry, ClientStatus.connected]
  by_cases htime : b.createTime < status.id.createTime
  · rw [if_pos ⟨hne, htime⟩]
    exact iff_of_true rfl htime
  · rw [if_neg fun h => htime h.2]
    exact iff_of_false (fun h => hne (Option.some.inj h).symm) htime

theorem owner_onEntry {msg : Message} {status : ClientStatus}
    (hlock : status.isHandshaking tryLockTimeout now = true) (hend : msg ≠ .sessionTerminated status.id)
    (hold : ∀ b, msg = .connected b → status.id = b ∨ b.createTime < status.id.createTime) :
    (msg.onEntry tryLockTimeout now (some status)).map ClientStatus.id = some status.id := by
  cases msg with
  | handshakeTryLock id =>
    rw [Message.onEntry, ClientStatus.tryLock, if_pos hlock]
    rfl
  | connected id =>
    by_cases hne : status.id = id
    · rw [Message.onEntry, ClientStatus.connected, if_neg fun h => h.1 hne, hne]
      rfl
    · exact (onEntry_connected hne).2 ((hold id rfl).resolve_left hne)
  | disconnected id =>
    rw [Message.onEntry, map_some, ClientStatus.disconnected]
    split_ifs <;> rfl
  | sessionTerminated id =>
    have hne : status.id ≠ id := fun heq => hend (congrArg Message.sessionTerminated heq.symm)
    rw [Message.onEntry, filter_some, if_pos (decide_eq_true hne)]
    rfl
  | _ => rfl

theorem guarded_step_iff (h : s.Recorded) (e : Message × Clock) :
    s.Guarded tryLockTimeout e ↔ s.Older e := by
  obtain ⟨msg, now⟩ := e
  constructor
  · intro hguarded b status hmsg hlookup
    dsimp only at hmsg
    subst hmsg
    refine or_iff_not_imp_left.2 fun hne => ?_
    have hkeeps := hguarded.keeps b status rfl hlookup hne
    have hclient : (Message.connected b).client = some b.clientId := rfl
    rw [lookup_step, if_pos hclient, hlookup] at hkeeps
    exact (onEntry_connected hne).1 hkeeps
  · intro hold
    constructor
    case refuses =>
      rintro a id hid hmsg
      dsimp only at hmsg
      subst hmsg
      obtain ⟨status, hlookup, -, hlock⟩ := hid.lookup h
      exact reply_handshakeTryLock (by rw [hlookup]; exact hlock)
    case stays =>
      intro c a ha hend
      obtain ⟨status, hlookup, rfl, hlock⟩ := ha.lookup h
      rw [lookup_step]
      split_ifs with hc
      · rw [hlookup]
        refine owner_onEntry hlock hend fun b hmsg => ?_
        subst hmsg
        obtain rfl := Option.some.inj hc
        exact hold b status rfl hlookup
      · rw [hlookup]
        rfl
    case keeps =>
      intro b status hmsg hlookup hne
      dsimp only at hmsg
      subst hmsg
      have hclient : (Message.connected b).client = some b.clientId := rfl
      rw [lookup_step, if_pos hclient, hlookup]
      exact (onEntry_connected hne).2 ((hold b status rfl hlookup).resolve_left hne)

/-- Every message respects the locks exactly if every session that is connected is the owner of the
entry of its client or older than the owner. -/
theorem guarded_iff (tryLockTimeout : TimestampMillis) (r : ClusterRouter) (log : List (Message × Clock)) :
    Along (step tryLockTimeout) (Guarded tryLockTimeout) { router := r } log ↔
      Along (step tryLockTimeout) Older { router := r } log := by
  have hstart : ({ router := r } : Ownership).Recorded := by
    intro c a time h
    exact absurd h (Option.some_ne_none _).symm
  exact along_congr Recorded (fun _ _ h hold => h.step hold) (fun _ e h => guarded_step_iff h e)
    hstart log

/-- A session has the lock, and a session that was created at the same time takes the entry over. -/
theorem taken_over :
    let a := Id.ofClient 1 "c" 0
    let b := Id.ofClient 2 "c" 0
    let s := ([(.handshakeTryLock a, ⟨0, 0⟩)] : List (Message × Clock)).foldl (step 1000) { router := {} }
    s.Owns 1000 ⟨1, 1⟩ "c" a ∧ ¬ s.Guarded 1000 (.connected b, ⟨1, 1⟩) := by
  intro a b s
  refine ⟨⟨0, by decide +kernel, by decide⟩, fun h => ?_⟩
  have hstays := h.stays "c" a ⟨0, by decide +kernel, by decide⟩ nofun
  revert hstays
  decide +kernel

end Ownership

end FerroMq
