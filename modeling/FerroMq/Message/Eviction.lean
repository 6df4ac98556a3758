import FerroMq.Message.Indexes

/-!
# What a clean-up removes

`remove_expired_messages` looks at the number of messages and at their size before it removes any, and tests
`removeds.len() > max_limit` before it takes one more.  `frugal_iff` says for which contents a clean-up is
`Frugal`.
-/

namespace FerroMq

open Lib List

namespace RamMessageManager

variable {cfg : RamConfig} {codec : MessageCodec} {s : RamMessageManager} {maxLimit : ℕ}
  {now : TimestampMillis}

/-! ## How many messages there are -/

theorem messagesCount_total_eq_zero (h : ∀ id, s.entry cfg codec id = none) :
    s.messagesCount cfg = 0 ∧ s.total cfg = 0 := by
  unfold entry at h
  unfold messagesCount total
  split_ifs at h ⊢
  all_goals
    rw [Map.eq_empty_of_lookup fun id => Option.map_eq_none_iff.1 (h id)]
    exact ⟨rfl, rfl⟩

/-- The heap has the number of messages and their size: nothing is left when all of them are removed. -/
theorem Indexed.messagesCount_total {expiries : List Expiry} (h : Indexed cfg codec s expiries) :
    s.messagesCount cfg = expiries.length ∧
      s.total cfg = (expiries.map fun e => size cfg codec s e.2).sum := by
  rw [← append_nil expiries] at h
  obtain ⟨s', -, h', hremoved, -⟩ := h.exists_removeMessages
  have hnone : ∀ id, s'.entry cfg codec id = none := by
    intro id
    by_contra hne
    obtain ⟨⟨e, size⟩, hentry⟩ := Option.ne_none_iff_exists'.1 hne
    obtain ⟨msg, topic, rfl, -⟩ := h'.readable id _ hentry
    exact nomatch (h'.expiry (msg.expiryTimeAt, id)).2 ⟨msg, size, hentry, rfl⟩
  obtain ⟨hcount, htotal⟩ := messagesCount_total_eq_zero hnone
  have hcount' := hremoved.count
  have htotal' := hremoved.total
  rw [hcount, Nat.zero_add, length_map] at hcount'
  rw [htotal, Nat.zero_add, map_map] at htotal'
  exact ⟨hcount'.symm, htotal'.symm⟩

theorem Indexed.exceeds_iff {expiries : List Expiry} (h : Indexed cfg codec s expiries) :
    s.exceeds cfg = true ↔ cfg.cacheMaxCount < expiries.length ∨
      cfg.cacheCapacity < (expiries.map fun e => size cfg codec s e.2).sum := by
  obtain ⟨hcount, htotal⟩ := h.messagesCount_total
  have hbytes : s.messagesBytesSizeGet = s.total cfg := by
    rw [messagesBytesSizeGet, h.bytes, if_neg (by omega), Int.toNat_natCast]
  rw [exceeds, Bool.or_eq_true, decide_eq_true_eq, decide_eq_true_eq, hbytes, hcount, htotal]

theorem Consistent.exceeds_removeMessages_iff (h : Consistent cfg codec s) (pre post : List Expiry)
    (hitems : s.expiries.items = pre ++ post) :
    (s.removeMessages cfg codec (pre.map Prod.snd)).1.exceeds cfg = true ↔
      cfg.cacheMaxCount < post.length ∨
        cfg.cacheCapacity < (post.map fun e => size cfg codec s e.2).sum := by
  rw [Consistent, hitems] at h
  obtain ⟨s', heq, h', hremoved, -⟩ := h.exists_removeMessages
  have hsizes : (post.map fun e => size cfg codec s' e.2) = post.map fun e => size cfg codec s e.2 := by
    refine map_congr_left fun e he => ?_
    rw [size, size, hremoved.entry, if_neg]
    intro hmem
    have hnodup := h.nodup
    rw [map_append, nodup_append] at hnodup
    exact hnodup.2.2 e.2 hmem e.2 (mem_map_of_mem he) rfl
  rw [heq, h'.exceeds_iff, hsizes]

/-! ## What a clean-up is to do -/

variable (cfg codec s maxLimit now) in
/-- The messages taken from the heap are removed, from the one that expires first on; there are not more
than allowed; and one that has not expired is only taken if there are too many messages or bytes once those
before it are gone. -/
structure Frugal : Prop where
  inOrder : (s.removedMsgIds cfg maxLimit now).Pairwise fun id id' => ∀ msg msg',
    s.messagesGet cfg codec id = .ok (some msg) → s.messagesGet cfg codec id' = .ok (some msg') →
      msg.expiryTimeAt ≤ msg'.expiryTimeAt
  removed : ∀ id ∈ s.removedMsgIds cfg maxLimit now,
    (s.removeExpiredMessages cfg codec maxLimit now).1.messagesExist cfg id = false
  atMost : (s.removedMsgIds cfg maxLimit now).length ≤ maxLimit
  needed : ∀ pre id post, s.removedMsgIds cfg maxLimit now = pre ++ id :: post → ∀ msg,
    s.messagesGet cfg codec id = .ok (some msg) → now < msg.expiryTimeAt →
      (s.removeMessages cfg codec pre).1.exceeds cfg = true

theorem Consistent.exists_messagesGet (h : Consistent cfg codec s) {e : Expiry} (he : e ∈ s.expiries.items) :
    ∃ msg, s.messagesGet cfg codec e.2 = .ok (some msg) ∧ msg.expiryTimeAt = e.1 := by
  obtain ⟨msg, size, hentry, htime⟩ := (h.expiry e).1 he
  refine ⟨msg, ?_, htime⟩
  rw [messagesGet_eq, hentry]
  rfl

theorem Consistent.inOrder (h : Consistent cfg codec s) (maxLimit : ℕ) (now : TimestampMillis) :
    (s.removedMsgIds cfg maxLimit now).Pairwise fun id id' => ∀ msg msg',
      s.messagesGet cfg codec id = .ok (some msg) → s.messagesGet cfg codec id' = .ok (some msg') →
        msg.expiryTimeAt ≤ msg'.expiryTimeAt := by
  have hpre : taken cfg s now maxLimit <+: s.expiries.items := ⟨_, taken_append_drop maxLimit⟩
  rw [removedMsgIds_eq, pairwise_map]
  refine (s.expiries.sorted.sublist hpre.sublist).imp_of_mem ?_
  intro e e' he he' hle msg msg' hmsg hmsg'
  obtain ⟨msg₁, hget, htime⟩ := h.exists_messagesGet (hpre.subset he)
  obtain ⟨msg₁', hget', htime'⟩ := h.exists_messagesGet (hpre.subset he')
  cases hmsg.symm.trans hget
  cases hmsg'.symm.trans hget'
  rw [htime, htime']
  exact hle.elim le_of_lt fun heq => heq.1.le

theorem Consistent.removed (h : Consistent cfg codec s) (maxLimit : ℕ) (now : TimestampMillis) :
    ∀ id ∈ s.removedMsgIds cfg maxLimit now,
      (s.removeExpiredMessages cfg codec maxLimit now).1.messagesExist cfg id = false := by
  intro id hid
  obtain ⟨s', heq, -, hremoved⟩ := h.exists_removeExpired maxLimit now
  rw [removedMsgIds_eq] at hid
  rw [heq, messagesExist_eq codec, hremoved.entry, if_pos hid]
  rfl

theorem Consistent.frugal_iff_of_not_exceeds (h : Consistent cfg codec s) (hexceeds : s.exceeds cfg = false) :
    Frugal cfg codec s maxLimit now ↔
      (s.expiries.items.countP fun e => decide (e.1 ≤ now)) ≤ maxLimit := by
  have hdue : s.isDue cfg now = fun e : Expiry => decide (e.1 ≤ now) := by
    funext e
    rw [isDue, hexceeds, Bool.or_false]
  have hlength : (s.removedMsgIds cfg maxLimit now).length =
      min (maxLimit + 1) (s.expiries.items.countP fun e => decide (e.1 ≤ now)) := by
    rw [removedMsgIds_eq, length_map, taken, length_take, hdue, Heap.length_takeWhile]
    intro e e' hle hnow
    rw [decide_eq_true_eq] at hnow ⊢
    exact (hle.elim le_of_lt fun heq => heq.1.le).trans hnow
  constructor
  · intro hfrugal
    have hle := hfrugal.atMost
    rw [hlength] at hle
    omega
  · intro hcount
    refine ⟨h.inOrder maxLimit now, h.removed maxLimit now, ?_, ?_⟩
    · rw [hlength]
      omega
    · -- everything taken has expired
      intro pre id post heq msg hmsg hnow
      have hid : id ∈ (taken cfg s now maxLimit).map Prod.snd := by
        rw [← removedMsgIds_eq, heq]
        exact mem_append_right _ mem_cons_self
      obtain ⟨e, he, rfl⟩ := mem_map.1 hid
      have hdue' := mem_takeWhile_imp (mem_of_mem_take he)
      obtain ⟨msg', hget, htime⟩ := h.exists_messagesGet
        ((takeWhile_subset _) (mem_of_mem_take he))
      cases hmsg.symm.trans hget
      rw [hdue, decide_eq_true_eq, ← htime] at hdue'
      exact absurd hnow (not_lt.2 hdue')

theorem Consistent.frugal_iff_of_exceeds (h : Consistent cfg codec s) (hexceeds : s.exceeds cfg = true) :
    Frugal cfg codec s maxLimit now ↔ s.expiries.items.length ≤ maxLimit ∧
      ∀ e ∈ s.expiries.items.getLast?,
        e.1 ≤ now ∨ cfg.cacheMaxCount = 0 ∨ cfg.cacheCapacity < size cfg codec s e.2 := by
  have hdue : s.isDue cfg now = fun _ : Expiry => true := by
    funext e
    rw [isDue, hexceeds, Bool.or_true]
  have htaken : s.removedMsgIds cfg maxLimit now = (s.expiries.items.take (maxLimit + 1)).map Prod.snd := by
    rw [removedMsgIds_eq, taken, hdue, takeWhile_eq_self_iff.2 fun _ _ => rfl]
  have hall : s.expiries.items.length ≤ maxLimit →
      s.removedMsgIds cfg maxLimit now = s.expiries.items.map Prod.snd := fun hle => by
    rw [htaken, take_of_length_le (by omega)]
  constructor
  · intro hfrugal
    have hle : s.expiries.items.length ≤ maxLimit := by
      have hatMost := hfrugal.atMost
      rw [htaken, length_map, length_take] at hatMost
      omega
    refine ⟨hle, fun e he => ?_⟩
    obtain ⟨pre, hitems⟩ := getLast?_eq_some_iff.1 he
    obtain ⟨msg, hget, htime⟩ := h.exists_messagesGet (e := e) (by rw [hitems]; simp)
    rw [← htime]
    by_contra hnot
    rw [not_or, not_le] at hnot
    have hneeded := hfrugal.needed (pre.map Prod.snd) e.2 [] (by rw [hall hle, hitems]; simp) msg hget hnot.1
    rw [h.exceeds_removeMessages_iff pre [e] hitems] at hneeded
    simp only [length_singleton, map_singleton, sum_singleton] at hneeded
    exact hnot.2 (hneeded.imp_left Nat.lt_one_iff.1)
  · rintro ⟨hle, hlast⟩
    refine ⟨h.inOrder maxLimit now, h.removed maxLimit now, ?_, ?_⟩
    · rw [hall hle, length_map]
      exact hle
    · intro pre id post heq msg hmsg hnow
      rw [hall hle] at heq
      obtain ⟨pre, rest, hitems, rfl, hrest⟩ := map_eq_append_iff.1 heq
      obtain ⟨e, post, rfl, rfl, rfl⟩ := map_eq_cons_iff.1 hrest
      rw [h.exceeds_removeMessages_iff pre (e :: post) hitems]
      -- the last message still exceeds the limits, and there is not more of it than of all that are left
      have hmem := getLast_mem (cons_ne_nil e post)
      have hlast' := hlast ((e :: post).getLast (cons_ne_nil e post)) (by
        rw [hitems, getLast?_append_of_ne_nil _ (cons_ne_nil e post)]
        exact getLast?_eq_some_getLast _)
      generalize (e :: post).getLast (cons_ne_nil e post) = last at hmem hlast'
      have hle : e.1 ≤ last.1 := by
        have hsorted := s.expiries.sorted
        rw [hitems, pairwise_append] at hsorted
        rcases mem_cons.1 hmem with rfl | hmem
        · exact le_rfl
        · exact (rel_of_pairwise_cons hsorted.2.1 hmem).elim le_of_lt fun heq => heq.1.le
      obtain ⟨msg', hget, htime⟩ := h.exists_messagesGet (e := e) (by rw [hitems]; simp)
      cases hmsg.symm.trans hget
      rw [htime] at hnow
      rcases hlast' with hexpired | hzero | hsize
      · exact absurd hexpired (not_le.2 (hnow.trans_le hle))
      · exact Or.inl (hzero ▸ Nat.succ_pos _)
      · exact Or.inr (hsize.trans_le (single_le_sum (fun _ _ => Nat.zero_le _) _
          (mem_map.2 ⟨last, hmem, rfl⟩)))

/-- A clean-up does what it is to do exactly if the limits are kept and not more messages have expired than
it may remove, or if they are exceeded, it may remove all messages, and even the one that expires last has
expired or is too much alone. -/
theorem frugal_iff (h : Consistent cfg codec s) :
    Frugal cfg codec s maxLimit now ↔
      if s.exceeds cfg then
        s.messagesCount cfg ≤ maxLimit ∧ ∀ e ∈ s.expiries.items.getLast?,
          e.1 ≤ now ∨ cfg.cacheMaxCount = 0 ∨ cfg.cacheCapacity < size cfg codec s e.2
      else (s.expiries.items.countP fun e => decide (e.1 ≤ now)) ≤ maxLimit := by
  split_ifs with hexceeds
  · rw [h.frugal_iff_of_exceeds hexceeds, h.messagesCount_total.1]
  · rw [h.frugal_iff_of_not_exceeds (Bool.eq_false_iff.2 hexceeds)]

/-- One message has expired and the limits are kept. -/
theorem frugal_iff_one_expired :
    let cfg : RamConfig := ⟨1000, 1, false⟩
    let s := new.step cfg .plain (storeStep 5 1 10)
    Consistent cfg .plain s ∧ (Frugal cfg .plain s 1 20 ↔
      if s.exceeds cfg then
        s.messagesCount cfg ≤ 1 ∧ ∀ e ∈ s.expiries.items.getLast?,
          e.1 ≤ 20 ∨ cfg.cacheMaxCount = 0 ∨ cfg.cacheCapacity < size cfg .plain s e.2
      else (s.expiries.items.countP fun e => decide (e.1 ≤ 20)) ≤ 1) := by
  intro cfg s
  have h : Consistent cfg .plain s :=
    (Run.consistent (.step (storeStep 5 1 10) .new) (by decide)).1
  exact ⟨h, frugal_iff h⟩

/-- Two messages where one is allowed: both are removed, although neither has expired. -/
theorem both_evicted :
    let cfg : RamConfig := ⟨1000, 1, false⟩
    let s := (new.step cfg .plain (storeStep 5 1 10)).step cfg .plain (storeStep 5 2 20)
    ¬ Frugal cfg .plain s 100 0 := by
  intro cfg s hfrugal
  have hids : s.removedMsgIds cfg 100 0 = [1, 2] := by decide +kernel
  have hleft : (s.removeMessages cfg .plain [1]).1.exceeds cfg = false := by decide +kernel
  have h : Consistent cfg .plain s :=
    (Run.consistent (.step (storeStep 5 2 20) (.step (storeStep 5 1 10) .new)) (by decide)).1
  obtain ⟨msg, hget, htime⟩ := h.exists_messagesGet (e := (20, 2)) (by decide +kernel)
  have hneeded := hfrugal.needed [1] 2 [] hids msg hget (by rw [htime]; decide)
  rw [hleft] at hneeded
  exact nomatch hneeded

end RamMessageManager

end FerroMq
