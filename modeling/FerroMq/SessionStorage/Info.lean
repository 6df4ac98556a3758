import FerroMq.Retain.Storage
import FerroMq.Session.Will

/-!
# Stored sessions

`load` drops a session that has expired without the configuration of the listeners, by the last time that is
stored; `rebuild_offline_sessions` decides for the others, by that or the time of the connection, whichever is
later.  `load_sound_iff` says when the first never goes beyond the second.  Times are far from the ends of their
range.
-/

namespace FerroMq.SessionStorage

open Lib Codec

abbrev StoredKey := Bytes

structure Basic where
  id : Id
  connInfo : ConnectInfo
  createdAt : TimestampMillis
  connectedAt : TimestampMillis

structure DisconnectInfo where
  disconnectedAt : TimestampMillis
  mqttDisconnect : Option Disconnect

structure StoredSessionInfo where
  idKey : StoredKey
  basic : Basic
  disconnectInfo : Option DisconnectInfo
  offlineMessages : List (From × Broker.Publish)
  lastTime : TimestampMillis

namespace StoredSessionInfo

def ofBasic (idKey : StoredKey) (basic : Basic) : StoredSessionInfo where
  idKey
  basic
  disconnectInfo := none
  offlineMessages := []
  lastTime := basic.connectedAt

def setDisconnectInfo (self : StoredSessionInfo) (disconnectInfo : DisconnectInfo) : StoredSessionInfo :=
  { self with disconnectInfo := some disconnectInfo }

def setLastTime (self : StoredSessionInfo) (lastTime : TimestampMillis) : StoredSessionInfo :=
  if self.lastTime < lastTime then { self with lastTime } else self

end StoredSessionInfo

/-- What is stored of a session in a map, as far as it can be read.  A map without basic information is removed. -/
structure Record where
  basic : Basic
  lastTime : Option TimestampMillis
  disconnectInfo : Option DisconnectInfo

/-! ## Expiry -/

def sessionExpiryInterval (fitter : DefaultFitter) (disconnectInfo : Option DisconnectInfo)
    (lastTime now : TimestampMillis) : TimestampMillis :=
  let disconnectedAt := (disconnectInfo.map DisconnectInfo.disconnectedAt).getD 0
  let disconnectedAt := if disconnectedAt ≤ 0 then lastTime else disconnectedAt
  (fitter.sessionExpiryInterval (disconnectInfo.bind DisconnectInfo.mqttDisconnect) : ℤ) - (now - disconnectedAt)

def disconnectSecs : Disconnect → Option ℕ
  | .v5 d => d.sessionExpiryIntervalSecs.map UInt32.toNat
  | .v3 => none

/-- The greater of the two intervals that a client asks for, in seconds. -/
def expiryUpperSecs (connectSecs : UInt32) (disconnectInfo : Option DisconnectInfo) : ℕ :=
  let disconnectSecs := (disconnectInfo.bind DisconnectInfo.mqttDisconnect).bind disconnectSecs
  max (disconnectSecs.getD connectSecs.toNat) connectSecs.toNat

def offlineSessionIsExpired (basic : Basic) (disconnectInfo : Option DisconnectInfo)
    (lastTime now : TimestampMillis) : Bool :=
  match basic.connInfo with
  | .v3 _ => false
  | .v5 connect =>
    let disconnectedAt := ((disconnectInfo.map DisconnectInfo.disconnectedAt).filter (0 < ·)).getD lastTime
    let elapsedMs := now - disconnectedAt
    decide ((expiryUpperSecs connect.sessionExpiryIntervalSecs disconnectInfo : ℤ) * 1000 - elapsedMs ≤ 0)

/-! ## Loading -/

namespace Record

def discarded (r : Record) (now : TimestampMillis) : Bool :=
  let lastTime := r.lastTime.getD 0
  decide (0 < lastTime) && offlineSessionIsExpired r.basic r.disconnectInfo lastTime now

def info (r : Record) (idKey : StoredKey) : StoredSessionInfo :=
  let info := StoredSessionInfo.ofBasic idKey r.basic
  let info := r.lastTime.elim info info.setLastTime
  r.disconnectInfo.elim info info.setDisconnectInfo

def load (r : Record) (idKey : StoredKey) (now : TimestampMillis) : Option StoredSessionInfo :=
  if r.discarded now then none else some (r.info idKey)

end Record

/-- `session_expiry_interval` as `rebuild_offline_sessions` computes it, with the intervals of the listener. -/
def StoredSessionInfo.expiryInterval (self : StoredSessionInfo) (listenSessionExpiryInterval
    listenMaxSessionExpiryInterval : Duration) (now : TimestampMillis) : TimestampMillis :=
  sessionExpiryInterval ⟨self.basic.connInfo, listenSessionExpiryInterval, listenMaxSessionExpiryInterval⟩
    self.disconnectInfo self.lastTime now

/-! ## The two checks -/

theorem Record.load_eq_none_iff {r : Record} {idKey : StoredKey} {now : TimestampMillis} :
    r.load idKey now = none ↔ r.discarded now = true := by
  rw [load]
  split_ifs with h
  · exact iff_of_true rfl h
  · exact iff_of_false nofun h

theorem Record.discarded_iff {r : Record} {connect : V5.Connect} {now : TimestampMillis}
    (h : r.basic.connInfo = .v5 connect) :
    r.discarded now = true ↔ 0 < r.lastTime.getD 0 ∧
      (expiryUpperSecs connect.sessionExpiryIntervalSecs r.disconnectInfo : ℤ) * 1000 ≤ now -
        ((r.disconnectInfo.map DisconnectInfo.disconnectedAt).filter (0 < ·)).getD (r.lastTime.getD 0) := by
  rw [discarded, Bool.and_eq_true, decide_eq_true_eq, offlineSessionIsExpired, h]
  simp only [decide_eq_true_eq, sub_nonpos]

theorem setLastTime_ofBasic (idKey : StoredKey) (basic : Basic) (lastTime : TimestampMillis) :
    (StoredSessionInfo.ofBasic idKey basic).setLastTime lastTime =
      { StoredSessionInfo.ofBasic idKey basic with lastTime := max basic.connectedAt lastTime } := by
  rw [StoredSessionInfo.setLastTime]
  split_ifs with hlt
  · have hmax : max basic.connectedAt lastTime = lastTime := max_eq_right (le_of_lt hlt)
    rw [hmax]
  · have hmax : max basic.connectedAt lastTime = basic.connectedAt := max_eq_left (not_lt.1 hlt)
    rw [hmax]
    rfl

theorem Record.info_eq (r : Record) (idKey : StoredKey) :
    r.info idKey =
      { idKey
        basic := r.basic
        disconnectInfo := r.disconnectInfo
        offlineMessages := []
        lastTime := max r.basic.connectedAt (r.lastTime.getD r.basic.connectedAt) } := by
  obtain ⟨basic, lastTime, disconnectInfo⟩ := r
  cases lastTime with
  | none =>
    rw [Option.getD_none, max_self]
    cases disconnectInfo <;> rfl
  | some lastTime =>
    rw [info]
    simp only [Option.elim_some, setLastTime_ofBasic]
    cases disconnectInfo <;> rfl

theorem sessionExpiryInterval_le (connect : V5.Connect) (disconnectInfo : Option DisconnectInfo)
    (interval maxInterval : Duration) :
    (⟨.v5 connect, interval, maxInterval⟩ : DefaultFitter).sessionExpiryInterval
      (disconnectInfo.bind DisconnectInfo.mqttDisconnect) ≤
        expiryUpperSecs connect.sessionExpiryIntervalSecs disconnectInfo * 1000 := by
  rw [expiryUpperSecs]
  generalize disconnectInfo.bind DisconnectInfo.mqttDisconnect = d
  -- what the client asks for, without the limit of the listener
  have hwithout : ∀ n : ℕ, n ≤ max ((d.bind disconnectSecs).getD connect.sessionExpiryIntervalSecs.toNat)
        connect.sessionExpiryIntervalSecs.toNat * 1000 →
      (if maxInterval = 0 then n else min n maxInterval) ≤
        max ((d.bind disconnectSecs).getD connect.sessionExpiryIntervalSecs.toNat)
          connect.sessionExpiryIntervalSecs.toNat * 1000 := by
    intro n hn
    split_ifs
    · exact hn
    · exact (min_le_left _ _).trans hn
  have hconnect := Nat.mul_le_mul_right 1000
    (le_max_right ((d.bind disconnectSecs).getD connect.sessionExpiryIntervalSecs.toNat)
      connect.sessionExpiryIntervalSecs.toNat)
  cases d with
  | none => exact hwithout _ hconnect
  | some d =>
    cases d with
    | v3 => exact hwithout _ hconnect
    | v5 d =>
      rw [DefaultFitter.sessionExpiryInterval]
      cases hsecs : d.sessionExpiryIntervalSecs with
      | none => exact hwithout _ hconnect
      | some secs =>
        refine hwithout _ (Nat.mul_le_mul_right 1000 ?_)
        simp [disconnectSecs, hsecs]

/-- The pre-check does not go beyond the later one: it is not made, or both go by the time of the DISCONNECT, or the
later one does not go by a time that is so much later that its shorter interval does not make up for it. -/
def Record.Sound (r : Record) (interval maxInterval : Duration) : Prop :=
  match r.basic.connInfo with
  | .v3 _ => True
  | .v5 connect =>
    let lastTime := r.lastTime.getD 0
    lastTime ≤ 0 ∨ 0 < (r.disconnectInfo.map DisconnectInfo.disconnectedAt).getD 0 ∨
      max r.basic.connectedAt lastTime + ((⟨r.basic.connInfo, interval, maxInterval⟩ : DefaultFitter).sessionExpiryInterval
          (r.disconnectInfo.bind DisconnectInfo.mqttDisconnect) : ℤ) ≤
        lastTime + (expiryUpperSecs connect.sessionExpiryIntervalSecs r.disconnectInfo : ℤ) * 1000

theorem filter_getD (o : Option TimestampMillis) (lastTime : TimestampMillis) :
    (o.filter (0 < ·)).getD lastTime = if o.getD 0 ≤ 0 then lastTime else o.getD 0 := by
  cases o with
  | none => rfl
  | some t =>
    by_cases ht : 0 < t
    · simp [Option.filter, ht, not_le.2 ht]
    · simp [Option.filter, ht, not_lt.1 ht]

theorem getD_of_pos {o : Option TimestampMillis} (h : 0 < o.getD 0) (t : TimestampMillis) : o.getD t = o.getD 0 := by
  cases o with
  | none => exact absurd h (lt_irrefl 0)
  | some t => rfl

/-- The two checks as numbers: `asked` is the interval of the later one and `upper` that of the pre-check. -/
theorem checks_iff {connectedAt lastTime disconnectedAt asked upper : ℤ} (hle : asked ≤ upper) (hlast : 0 < lastTime) :
    (∀ now₁ now₂ : ℤ, now₁ ≤ now₂ → 0 < lastTime ∧
        upper ≤ now₁ - (if disconnectedAt ≤ 0 then lastTime else disconnectedAt) →
      asked ≤ now₂ - (if disconnectedAt ≤ 0 then max connectedAt lastTime else disconnectedAt)) ↔
    lastTime ≤ 0 ∨ 0 < disconnectedAt ∨ max connectedAt lastTime + asked ≤ lastTime + upper := by
  split_ifs with hd
  · constructor
    · intro h
      -- the first moment at which the session is discarded
      have hfirst := h (lastTime + upper) _ le_rfl ⟨hlast, by omega⟩
      omega
    · rintro (h | h | h) now₁ now₂ hnow ⟨-, hdiscarded⟩
      all_goals omega
  · refine iff_of_true (fun now₁ now₂ hnow hdiscarded => ?_) (.inr (.inl (not_le.1 hd)))
    omega

/-- Exactly then is no session dropped that would be rebuilt. -/
theorem load_sound_iff (r : Record) (idKey : StoredKey) (interval maxInterval : Duration) :
    (∀ now₁ now₂, now₁ ≤ now₂ → r.load idKey now₁ = none →
      (r.info idKey).expiryInterval interval maxInterval now₂ ≤ 0) ↔ r.Sound interval maxInterval := by
  simp only [Record.load_eq_none_iff]
  rw [Record.Sound]
  cases hconn : r.basic.connInfo with
  | v3 c =>
    refine iff_of_true (fun now₁ now₂ _ hdiscarded => ?_) trivial
    rw [Record.discarded, offlineSessionIsExpired, hconn, Bool.and_false] at hdiscarded
    exact nomatch hdiscarded
  | v5 connect =>
    have hle := sessionExpiryInterval_le connect r.disconnectInfo interval maxInterval
    simp only [Record.discarded_iff hconn, StoredSessionInfo.expiryInterval, Record.info_eq, sessionExpiryInterval,
      hconn, sub_nonpos, filter_getD]
    generalize (⟨.v5 connect, interval, maxInterval⟩ : DefaultFitter).sessionExpiryInterval
      (r.disconnectInfo.bind DisconnectInfo.mqttDisconnect) = asked at hle ⊢
    generalize expiryUpperSecs connect.sessionExpiryIntervalSecs r.disconnectInfo = upper at hle ⊢
    generalize (r.disconnectInfo.map DisconnectInfo.disconnectedAt).getD 0 = disconnectedAt
    rcases le_or_gt (r.lastTime.getD 0) 0 with hnone | hlast
    · exact iff_of_true (fun _ _ _ hd => absurd hd.1 (not_lt.2 hnone)) (.inl hnone)
    rw [getD_of_pos hlast r.basic.connectedAt]
    have hasked : (asked : ℤ) ≤ (upper : ℤ) * 1000 := by exact_mod_cast hle
    exact checks_iff hasked hlast

def Record.stale : Record where
  basic :=
    { id := ⟨1, 1, none, none, "c", none, 0⟩
      connInfo := .v5 { sessionExpiryIntervalSecs := 100 }
      createdAt := 500000
      connectedAt := 1000000 }
  lastTime := some 500000
  disconnectInfo := none

/-- The session is dropped 50 s after the connection, although it would be kept for another 50 s. -/
theorem load_drops_valid :
    Record.stale.load [1] 1050000 = none ∧ (Record.stale.info [1]).expiryInterval 0 0 1050000 = 50000 :=
  ⟨Record.load_eq_none_iff.2 (by decide +kernel), by decide +kernel⟩

end FerroMq.SessionStorage
