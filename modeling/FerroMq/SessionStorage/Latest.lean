import FerroMq.SessionStorage.Info

/-!
# Choosing among stored sessions

When the broker starts, offline messages are attached to the stored sessions of a client, by the client that a
message names and the key of its list (`setOfflineMessages`), and the latest session of each client is kept
(`retainLatests`).
-/

namespace FerroMq.SessionStorage

open Lib List

abbrev OfflineMessage := Option (ClientId × From × Broker.Publish)

/-- The sessions under their clients, in the order in which they were added. -/
abbrev StoredSessionInfos := Map ClientId (List StoredSessionInfo)

namespace StoredSessionInfos

variable (self : StoredSessionInfos)

def add (stored : StoredSessionInfo) : StoredSessionInfos := Map.push self stored.basic.id.clientId stored

/-- The inner loop of `set_offline_messages`: the message goes to the first session with the key. -/
def pushMessage (idKey : StoredKey) (m : From × Broker.Publish) : List StoredSessionInfo → List StoredSessionInfo
  | [] => []
  | stored :: storeds =>
    if stored.idKey = idKey then { stored with offlineMessages := stored.offlineMessages ++ [m] } :: storeds
    else stored :: pushMessage idKey m storeds

def setOfflineMessage (idKey : StoredKey) (e : ClientId × From × Broker.Publish) : StoredSessionInfos × Bool :=
  match self.lookup e.1 with
  | some storeds => (self.insert e.1 (pushMessage idKey e.2 storeds), storeds.any (·.idKey = idKey))
  | none => (self, false)

def setOfflineMessages (idKey : StoredKey) (offlineMessages : List OfflineMessage) : StoredSessionInfos × Bool :=
  (offlineMessages.filterMap id).foldl (fun (self, exist) e =>
    let (self, found) := setOfflineMessage self idKey e
    (self, exist || found)) (self, false)

/-- The loop of `retain_latests` over the sessions of a client, in the order in which they are popped. -/
def keepLatest (latest : StoredSessionInfo) (removeds : List StoredKey) :
    List StoredSessionInfo → StoredSessionInfo × List StoredKey
  | [] => (latest, removeds)
  | stored :: storeds =>
    if stored.lastTime > latest.lastTime then keepLatest stored (removeds ++ [latest.idKey]) storeds
    else keepLatest latest (removeds ++ [stored.idKey]) storeds

def retainEntry (storeds : List StoredSessionInfo) : List StoredSessionInfo × List StoredKey :=
  match storeds.reverse with
  | latest :: stored :: storeds =>
    let (latest, removeds) := keepLatest latest [] (stored :: storeds)
    ([latest], removeds)
  | _ => (storeds, [])

def retainLatest (removeds : List StoredKey) (cid : ClientId) : StoredSessionInfos × List StoredKey :=
  match self.lookup cid with
  | some storeds =>
    let (storeds, removeds') := retainEntry storeds
    (self.insert cid storeds, removeds ++ removeds')
  | none => (self, removeds)

/-- The clients come in the order in which the map is gone through. -/
def retainLatests (order : List ClientId) : StoredSessionInfos × List StoredKey :=
  order.foldl (fun (self, removeds) cid => retainLatest self removeds cid) (self, [])

end StoredSessionInfos

def ofRecords (records : List (StoredKey × Record)) : StoredSessionInfos :=
  records.foldl (fun (infos : StoredSessionInfos) r => infos.add (r.2.info r.1)) ∅

def withLists (records : List (StoredKey × Record)) (lists : List (StoredKey × List OfflineMessage)) :
    StoredSessionInfos :=
  lists.foldl (fun infos l => (infos.setOfflineMessages l.1 l.2).1) (ofRecords records)

/-- `load_offline_session_infos` from the records that are loaded on: the sessions, and the keys of those that are
removed. -/
def loadOfflineSessionInfos (records : List (StoredKey × Record)) (lists : List (StoredKey × List OfflineMessage))
    (order : List ClientId) : StoredSessionInfos × List StoredKey :=
  (withLists records lists).retainLatests order

/-! ## Messages -/

def messagesOf (lists : List (StoredKey × List OfflineMessage)) (cid : ClientId) (idKey : StoredKey) :
    List (From × Broker.Publish) :=
  lists.flatMap fun l =>
    if l.1 = idKey then (l.2.filterMap id).filterMap fun e => if e.1 = cid then some e.2 else none else []

/-- A session with further messages, from those that there are for its key. -/
def StoredSessionInfo.give (self : StoredSessionInfo) (g : StoredKey → List (From × Broker.Publish)) :
    StoredSessionInfo :=
  { self with offlineMessages := self.offlineMessages ++ g self.idKey }

namespace StoredSessionInfos

variable {self infos infos' infos'' : StoredSessionInfos}

/-- The sessions of one client have different keys. -/
def Distinct (self : StoredSessionInfos) : Prop :=
  ∀ cid storeds, self.lookup cid = some storeds → (storeds.map (·.idKey)).Nodup

/-- The second has what the first has, and the messages `g` besides. -/
def Given (g : ClientId → StoredKey → List (From × Broker.Publish)) (infos infos' : StoredSessionInfos) : Prop :=
  ∀ cid, infos'.lookup cid = (infos.lookup cid).map (List.map (·.give (g cid)))

theorem Given.refl : Given (fun _ _ => []) infos infos := by
  intro cid
  have hgive : (fun s : StoredSessionInfo => s.give fun _ => []) = id := by
    funext s
    rw [StoredSessionInfo.give, append_nil, id_eq]
  rw [hgive, map_id_fun, Option.map_id_fun, id_eq]

theorem Given.trans {g g' : ClientId → StoredKey → List (From × Broker.Publish)} (h : Given g infos infos')
    (h' : Given g' infos' infos'') : Given (fun cid k => g cid k ++ g' cid k) infos infos'' := by
  intro cid
  rw [h' cid, h cid, Option.map_map]
  congr 1
  funext storeds
  simp only [Function.comp_apply, map_map, StoredSessionInfo.give, Function.comp_def, append_assoc]

theorem Given.distinct {g : ClientId → StoredKey → List (From × Broker.Publish)} (h : Given g infos infos')
    (hd : Distinct infos) : Distinct infos' := by
  intro cid storeds' hs
  rw [h cid] at hs
  obtain ⟨storeds, hlook, rfl⟩ := Option.map_eq_some_iff.1 hs
  simpa only [map_map, Function.comp_def, StoredSessionInfo.give] using hd cid storeds hlook

theorem Given.foldl {α : Type} {f : StoredSessionInfos → α → StoredSessionInfos}
    {g : α → ClientId → StoredKey → List (From × Broker.Publish)}
    (hf : ∀ infos a, Distinct infos → Given (g a) infos (f infos a)) (as : List α) :
    ∀ {infos}, Distinct infos → Given (fun cid k => as.flatMap (g · cid k)) infos (as.foldl f infos) := by
  induction as with
  | nil => exact fun _ => .refl
  | cons a as ih =>
    intro infos hd
    have ha := hf infos a hd
    exact ha.trans (ih (ha.distinct hd))

variable {storeds : List StoredSessionInfo}

theorem pushMessage_of_notMem {idKey : StoredKey} {m : From × Broker.Publish}
    (h : idKey ∉ storeds.map (·.idKey)) : pushMessage idKey m storeds = storeds := by
  induction storeds with
  | nil => rfl
  | cons stored storeds ih =>
    rw [map_cons, mem_cons, not_or] at h
    rw [pushMessage, if_neg (Ne.symm h.1), ih h.2]

/-- As no key comes twice, the first session with the key is the only one. -/
theorem pushMessage_eq_map {idKey : StoredKey} {m : From × Broker.Publish} (h : (storeds.map (·.idKey)).Nodup) :
    pushMessage idKey m storeds = storeds.map (·.give fun k => if idKey = k then [m] else []) := by
  induction storeds with
  | nil => rfl
  | cons stored storeds ih =>
    rw [map_cons, nodup_cons] at h
    rw [pushMessage, map_cons, ← ih h.2]
    split_ifs with hk
    · subst hk
      rw [pushMessage_of_notMem h.1, StoredSessionInfo.give, if_pos rfl]
    · rw [StoredSessionInfo.give, if_neg (Ne.symm hk), append_nil]

theorem setOfflineMessage_given (idKey : StoredKey) (e : ClientId × From × Broker.Publish) (h : Distinct self) :
    Given (fun cid k => if idKey = k ∧ e.1 = cid then [e.2] else []) self (setOfflineMessage self idKey e).1 := by
  intro cid
  by_cases hcid : cid = e.1
  · subst hcid
    rw [setOfflineMessage]
    cases hlook : self.lookup e.1 with
    | none => exact hlook
    | some storeds =>
      rw [Finmap.lookup_insert, pushMessage_eq_map (h _ _ hlook)]
      simp only [and_true, Option.map_some]
  · have hframe : (setOfflineMessage self idKey e).1.lookup cid = self.lookup cid := by
      rw [setOfflineMessage]
      cases self.lookup e.1 with
      | none => rfl
      | some storeds => exact Finmap.lookup_insert_of_ne _ hcid
    rw [hframe]
    simp only [Ne.symm hcid, and_false, if_false]
    exact Given.refl cid

theorem setOfflineMessages_fst (self : StoredSessionInfos) (idKey : StoredKey) (offlineMessages : List OfflineMessage) :
    (self.setOfflineMessages idKey offlineMessages).1 =
      (offlineMessages.filterMap id).foldl (fun self e => (setOfflineMessage self idKey e).1) self :=
  (foldl_hom Prod.fst fun _ _ => rfl).symm

theorem foldl_setOfflineMessages_given (lists : List (StoredKey × List OfflineMessage)) (h : Distinct self) :
    Given (messagesOf lists) self (lists.foldl (fun infos l => (setOfflineMessages infos l.1 l.2).1) self) := by
  refine Given.foldl (fun infos l hd => ?_) lists h
  rw [setOfflineMessages_fst]
  have hloop := Given.foldl (fun infos e hd => setOfflineMessage_given l.1 e hd) (l.2.filterMap id) hd
  convert hloop using 3 with cid k
  split_ifs with hk
  · simp only [hk, true_and]
    induction l.2.filterMap id with
    | nil => rfl
    | cons e es ih =>
      rw [filterMap_cons, flatMap_cons, ← ih]
      split_ifs <;> rfl
  · simp [hk]

/-! ## The latest -/

/-- The loop keeps one of the sessions, none of which is later, and returns the keys of the others. -/
theorem keepLatest_spec (latest : StoredSessionInfo) (removeds : List StoredKey) (storeds : List StoredSessionInfo) :
    (keepLatest latest removeds storeds).1 ∈ latest :: storeds ∧
    (∀ s ∈ latest :: storeds, s.lastTime ≤ (keepLatest latest removeds storeds).1.lastTime) ∧
    ((keepLatest latest removeds storeds).1.idKey :: (keepLatest latest removeds storeds).2).Perm
      (latest.idKey :: (removeds ++ storeds.map (·.idKey))) := by
  fun_induction keepLatest latest removeds storeds with
  | case1 latest removeds => simp
  | case2 latest removeds stored storeds hlater ih =>
    obtain ⟨hmem, hmax, hperm⟩ := ih
    refine ⟨mem_cons_of_mem _ hmem, ?_, hperm.trans ?_⟩
    · rw [forall_mem_cons]
      exact ⟨le_of_lt (lt_of_lt_of_le hlater (hmax _ mem_cons_self)), hmax⟩
    · rw [append_assoc, map_cons]
      exact (perm_middle.cons _).trans (.swap ..) |>.trans (perm_middle.symm.cons _)
  | case3 latest removeds stored storeds hnot ih =>
    obtain ⟨hmem, hmax, hperm⟩ := ih
    refine ⟨?_, ?_, hperm.trans ?_⟩
    · rcases mem_cons.1 hmem with heq | hmem
      · exact mem_cons.2 (.inl heq)
      · exact mem_cons_of_mem _ (mem_cons_of_mem _ hmem)
    · rw [forall_mem_cons] at hmax ⊢
      rw [forall_mem_cons]
      exact ⟨hmax.1, le_trans (not_lt.1 hnot) hmax.1, hmax.2⟩
    · rw [append_assoc, map_cons]
      exact .rfl

theorem retainEntry_spec (h : storeds ≠ []) :
    ∃ latest ∈ storeds, (retainEntry storeds).1 = [latest] ∧ (∀ s ∈ storeds, s.lastTime ≤ latest.lastTime) ∧
      (latest.idKey :: (retainEntry storeds).2).Perm (storeds.map (·.idKey)) := by
  obtain ⟨latest, rest, hrev⟩ := exists_cons_of_ne_nil (mt reverse_eq_nil_iff.1 h)
  have hmem (s : StoredSessionInfo) : s ∈ storeds ↔ s ∈ latest :: rest := by rw [← hrev, mem_reverse]
  have hperm : ((latest :: rest).map (·.idKey)).Perm (storeds.map (·.idKey)) :=
    (hrev ▸ reverse_perm storeds).map _
  simp only [hmem]
  cases rest with
  | nil =>
    obtain rfl : storeds = [latest] := by rw [← reverse_reverse storeds, hrev]; rfl
    exact ⟨latest, mem_cons_self, rfl, by simp, .rfl⟩
  | cons stored rest =>
    obtain ⟨hin, hmax, hkeys⟩ := keepLatest_spec latest [] (stored :: rest)
    have hentry : retainEntry storeds = ([(keepLatest latest [] (stored :: rest)).1],
        (keepLatest latest [] (stored :: rest)).2) := by rw [retainEntry, hrev]
    rw [hentry]
    exact ⟨_, hin, rfl, hmax, hkeys.trans hperm⟩

theorem retainLatest_fst (self : StoredSessionInfos) (removeds : List StoredKey) (cid cid' : ClientId) :
    (retainLatest self removeds cid).1.lookup cid' =
      if cid' = cid then (self.lookup cid').map fun s => (retainEntry s).1 else self.lookup cid' := by
  rw [retainLatest]
  cases hlook : self.lookup cid with
  | none =>
    split_ifs with heq
    · rw [heq, hlook]
      rfl
    · rfl
  | some storeds =>
    rw [Map.lookup_insert']
    split_ifs with heq
    · rw [heq, hlook]
      rfl
    · rfl

def removedsOf (self : StoredSessionInfos) (cid : ClientId) : List StoredKey :=
  ((self.lookup cid).map fun s => (retainEntry s).2).getD []

theorem retainLatest_snd (self : StoredSessionInfos) (removeds : List StoredKey) (cid : ClientId) :
    (retainLatest self removeds cid).2 = removeds ++ self.removedsOf cid := by
  rw [retainLatest, removedsOf]
  cases self.lookup cid with
  | none => exact (append_nil _).symm
  | some storeds => rfl

theorem foldl_retainLatest {order : List ClientId} (h : order.Nodup) (self : StoredSessionInfos)
    (removeds : List StoredKey) :
    let r := order.foldl (fun (self, removeds) cid => retainLatest self removeds cid) (self, removeds)
    (∀ cid, r.1.lookup cid =
      if cid ∈ order then (self.lookup cid).map fun s => (retainEntry s).1 else self.lookup cid) ∧
    r.2 = removeds ++ order.flatMap self.removedsOf := by
  induction order generalizing self removeds with
  | nil => simp
  | cons c order ih =>
    obtain ⟨hc, hrest⟩ := nodup_cons.1 h
    obtain ⟨hlook, hremoved⟩ := ih hrest (retainLatest self removeds c).1 (retainLatest self removeds c).2
    have hsame {cid : ClientId} (hin : cid ∈ order) :
        (retainLatest self removeds c).1.lookup cid = self.lookup cid := by
      rw [retainLatest_fst, if_neg (ne_of_mem_of_not_mem hin hc)]
    refine ⟨fun cid => ?_, ?_⟩
    · rw [foldl_cons, hlook]
      by_cases hin : cid ∈ order
      · rw [if_pos hin, if_pos (mem_cons_of_mem _ hin), hsame hin]
      · rw [if_neg hin, retainLatest_fst]
        simp only [mem_cons, hin, or_false]
    · have hkeys : ∀ cid ∈ order, (retainLatest self removeds c).1.removedsOf cid = self.removedsOf cid := by
        intro cid hin
        rw [removedsOf, hsame hin, removedsOf]
      rw [foldl_cons, hremoved, retainLatest_snd, flatMap_cons, append_assoc,
        flatMap_congr hkeys]

theorem retainLatests_spec {order : List ClientId} (h : order.Nodup) (self : StoredSessionInfos) :
    (∀ cid, (retainLatests self order).1.lookup cid =
      if cid ∈ order then (self.lookup cid).map fun s => (retainEntry s).1 else self.lookup cid) ∧
    (retainLatests self order).2 = order.flatMap self.removedsOf :=
  foldl_retainLatest h self []

end StoredSessionInfos

/-! ## Start-up -/

abbrev Record.clientId (r : Record) : ClientId := r.basic.id.clientId

/-- What should be kept of a client: one of its records, none of which is later, with the messages for it. -/
structure IsLatest (records : List (StoredKey × Record)) (lists : List (StoredKey × List OfflineMessage))
    (cid : ClientId) (kept : StoredSessionInfo) : Prop where
  ofRecord : ∃ r ∈ records, r.2.clientId = cid ∧
    kept = { r.2.info r.1 with offlineMessages := messagesOf lists cid r.1 }
  latest : ∀ r ∈ records, r.2.clientId = cid → (r.2.info r.1).lastTime ≤ kept.lastTime

section Startup

open StoredSessionInfos

variable {records : List (StoredKey × Record)} {lists : List (StoredKey × List OfflineMessage)}

theorem info_clientId (r : StoredKey × Record) : (r.2.info r.1).basic.id.clientId = r.2.clientId := by
  rw [Record.info_eq]

theorem info_idKey (r : StoredKey × Record) : (r.2.info r.1).idKey = r.1 := by
  rw [Record.info_eq]

def recordsOf (records : List (StoredKey × Record)) (cid : ClientId) : List (StoredKey × Record) :=
  records.filter fun r => r.2.clientId = cid

variable {cid : ClientId}

theorem mem_recordsOf {r : StoredKey × Record} :
    r ∈ recordsOf records cid ↔ r ∈ records ∧ r.2.clientId = cid := by
  rw [recordsOf, mem_filter, decide_eq_true_iff]

theorem lookup_ofRecords (cid : ClientId) : (ofRecords records).lookup cid =
    if recordsOf records cid = [] then none else some ((recordsOf records cid).map fun r => r.2.info r.1) := by
  have hpush : ofRecords records = Map.pushAll (records.map fun r => (r.2.clientId, r.2.info r.1)) := by
    simp only [ofRecords, Map.pushAll, foldl_map, add, info_clientId]
  rw [hpush, Map.lookup_pushAll, filter_map, map_map]
  simp only [map_eq_nil_iff]
  rfl

theorem distinct_ofRecords (h : (records.map Prod.fst).Nodup) : Distinct (ofRecords records) := by
  intro cid storeds hlook
  rw [lookup_ofRecords] at hlook
  split_ifs at hlook with hnil
  obtain rfl := Option.some.inj hlook
  rw [map_map]
  simp only [Function.comp_def, info_idKey]
  exact h.sublist (filter_sublist.map _)

def withMessages (lists : List (StoredKey × List OfflineMessage)) (cid : ClientId) (r : StoredKey × Record) :
    StoredSessionInfo :=
  { r.2.info r.1 with offlineMessages := messagesOf lists cid r.1 }

theorem lookup_withLists (h : (records.map Prod.fst).Nodup) (cid : ClientId) :
    (withLists records lists).lookup cid =
      if recordsOf records cid = [] then none else some ((recordsOf records cid).map (withMessages lists cid)) := by
  have hgive (r : StoredKey × Record) : (r.2.info r.1).give (messagesOf lists cid) = withMessages lists cid r := by
    rw [StoredSessionInfo.give, withMessages, Record.info_eq, nil_append]
  rw [withLists, foldl_setOfflineMessages_given lists (distinct_ofRecords h) cid, lookup_ofRecords]
  split_ifs with hnil
  · rfl
  · rw [Option.map_some, map_map]
    simp only [Function.comp_def, hgive]

theorem retainEntry_withMessages (h : recordsOf records cid ≠ []) : ∃ kept, IsLatest records lists cid kept ∧
      (retainEntry ((recordsOf records cid).map (withMessages lists cid))).1 = [kept] ∧
      (kept.idKey :: (retainEntry ((recordsOf records cid).map (withMessages lists cid))).2).Perm
        ((recordsOf records cid).map Prod.fst) := by
  obtain ⟨kept, hmem, hentry, hmax, hperm⟩ := retainEntry_spec (mt map_eq_nil_iff.1 h)
  have hkeys : ((recordsOf records cid).map (withMessages lists cid)).map (·.idKey) =
      (recordsOf records cid).map Prod.fst := by
    rw [map_map]
    exact map_congr_left fun r _ => info_idKey r
  refine ⟨kept, ⟨?_, fun r hr hcid => ?_⟩, hentry, hkeys ▸ hperm⟩
  · obtain ⟨r, hr, rfl⟩ := mem_map.1 hmem
    exact ⟨r, (mem_recordsOf.1 hr).1, (mem_recordsOf.1 hr).2, rfl⟩
  · exact hmax (withMessages lists cid r) (mem_map_of_mem (mem_recordsOf.2 ⟨hr, hcid⟩))

theorem eq_of_mem_recordsOf (h : (records.map Prod.fst).Nodup) {cid' : ClientId} {k : StoredKey}
    (hk : k ∈ (recordsOf records cid).map Prod.fst) (hk' : k ∈ (recordsOf records cid').map Prod.fst) :
    cid = cid' := by
  obtain ⟨r, hr, rfl⟩ := mem_map.1 hk
  obtain ⟨r', hr', heq⟩ := mem_map.1 hk'
  rw [mem_recordsOf] at hr hr'
  obtain rfl := inj_on_of_nodup_map h hr'.1 hr.1 heq
  exact hr.2.symm.trans hr'.2

theorem nodup_recordsOf (h : (records.map Prod.fst).Nodup) (cid : ClientId) :
    ((recordsOf records cid).map Prod.fst).Nodup :=
  h.sublist (filter_sublist.map _)

variable {order : List ClientId}

theorem mem_order_iff (h : ∀ cid, cid ∈ order ↔ ∃ r ∈ records, r.2.clientId = cid) :
    cid ∈ order ↔ recordsOf records cid ≠ [] := by
  rw [h]
  refine ⟨fun ⟨r, hr, hcid⟩ => ne_nil_of_mem (mem_recordsOf.2 ⟨hr, hcid⟩), fun hne => ?_⟩
  obtain ⟨r, hr⟩ := exists_mem_of_ne_nil _ hne
  exact ⟨r, mem_recordsOf.1 hr⟩

section Kept

variable (lists) (hkeys : (records.map Prod.fst).Nodup) (horder : order.Nodup)
  (hclients : ∀ cid, cid ∈ order ↔ ∃ r ∈ records, r.2.clientId = cid)

include hkeys horder hclients

theorem exists_kept (hcid : cid ∈ order) :
    ∃ kept, (loadOfflineSessionInfos records lists order).1.lookup cid = some [kept] ∧
      IsLatest records lists cid kept ∧
      (kept.idKey :: (withLists records lists).removedsOf cid).Perm ((recordsOf records cid).map Prod.fst) := by
  have hrec := (mem_order_iff hclients).1 hcid
  obtain ⟨kept, hlatest, hentry, hperm⟩ := retainEntry_withMessages hrec
  refine ⟨kept, ?_, hlatest, ?_⟩
  · rw [loadOfflineSessionInfos, (retainLatests_spec horder _).1, if_pos hcid, lookup_withLists hkeys, if_neg hrec,
      Option.map_some, hentry]
  · rw [removedsOf, lookup_withLists hkeys, if_neg hrec]
    exact hperm

theorem nodup_removeds : (loadOfflineSessionInfos records lists order).2.Nodup := by
  have hkept {cid : ClientId} (hcid : cid ∈ order) := exists_kept lists hkeys horder hclients hcid
  rw [loadOfflineSessionInfos, (retainLatests_spec horder _).2]
  refine nodup_flatMap.2 ⟨fun cid hcid => ?_, ?_⟩
  · obtain ⟨_, -, -, hperm⟩ := hkept hcid
    exact (nodup_cons.1 (hperm.nodup_iff.2 (nodup_recordsOf hkeys cid))).2
  · refine horder.imp_of_mem fun hcid hcid' hne k hk hk' => hne ?_
    obtain ⟨_, -, -, hperm⟩ := hkept hcid
    obtain ⟨_, -, -, hperm'⟩ := hkept hcid'
    exact eq_of_mem_recordsOf hkeys (hperm.subset (mem_cons_of_mem _ hk))
      (hperm'.subset (mem_cons_of_mem _ hk'))

theorem mem_removeds_iff (k : StoredKey) :
    k ∈ (loadOfflineSessionInfos records lists order).2 ↔
      ∃ r ∈ records, r.1 = k ∧ ∀ kept,
        (loadOfflineSessionInfos records lists order).1.lookup r.2.clientId = some [kept] → kept.idKey ≠ k := by
  have hkept {cid : ClientId} (hcid : cid ∈ order) := exists_kept lists hkeys horder hclients hcid
  have hremoved : (loadOfflineSessionInfos records lists order).2 = _ := (retainLatests_spec horder _).2
  rw [hremoved, mem_flatMap]
  constructor
  · rintro ⟨cid, hcid, hk⟩
    obtain ⟨kept, hlook, -, hperm⟩ := hkept hcid
    obtain ⟨r, hr, rfl⟩ := mem_map.1 (hperm.subset (mem_cons_of_mem _ hk))
    obtain ⟨hin, rfl⟩ := mem_recordsOf.1 hr
    refine ⟨r, hin, rfl, fun kept' hlook' heq => ?_⟩
    obtain rfl : kept = kept' := head_eq_of_cons_eq (Option.some.inj (hlook.symm.trans hlook'))
    exact (nodup_cons.1 (hperm.nodup_iff.2 (nodup_recordsOf hkeys _))).1 (heq ▸ hk)
  · rintro ⟨r, hr, rfl, hdropped⟩
    have hcid : r.2.clientId ∈ order := (hclients _).2 ⟨r, hr, rfl⟩
    obtain ⟨kept, hlook, -, hperm⟩ := hkept hcid
    have hmem : r.1 ∈ kept.idKey :: _ := hperm.mem_iff.2 (mem_map_of_mem (mem_recordsOf.2 ⟨hr, rfl⟩))
    exact ⟨_, hcid, (mem_cons.1 hmem).resolve_left (Ne.symm (hdropped kept hlook))⟩

end Kept

/-- However many records a client has, one is left, the latest, with the messages of its client in the lists with its
key, in their order; and the keys of the others are returned, each once. -/
theorem retain_latest_of_records (hkeys : (records.map Prod.fst).Nodup) (horder : order.Nodup)
    (hclients : ∀ cid, cid ∈ order ↔ ∃ r ∈ records, r.2.clientId = cid) :
    let (infos, removeds) := loadOfflineSessionInfos records lists order
    (∀ cid ∈ order, ∃ kept, infos.lookup cid = some [kept] ∧ IsLatest records lists cid kept) ∧
    (∀ cid ∉ order, infos.lookup cid = none) ∧
    removeds.Nodup ∧
    ∀ k, k ∈ removeds ↔
      ∃ r ∈ records, r.1 = k ∧ ∀ kept, infos.lookup r.2.clientId = some [kept] → kept.idKey ≠ k := by
  refine ⟨fun cid hcid => ?_, fun cid hcid => ?_, nodup_removeds lists hkeys horder hclients,
    mem_removeds_iff lists hkeys horder hclients⟩
  · obtain ⟨kept, hlook, hlatest, -⟩ := exists_kept lists hkeys horder hclients hcid
    exact ⟨kept, hlook, hlatest⟩
  · refine ((retainLatests_spec horder (withLists records lists)).1 cid).trans ?_
    rw [if_neg hcid, lookup_withLists hkeys, if_pos (not_not.1 (mt (mem_order_iff hclients).2 hcid))]

def twoRecords : List (StoredKey × Record) := [([1], .stale), ([2], { Record.stale with lastTime := some 2000000 })]

def messageTo (cid : ClientId) : ClientId × From × Broker.Publish :=
  (cid, (Retain.plain "t" [] none).from, (Retain.plain "t" [] none).publish)

theorem retain_latest_of_two :
    (∃ kept, (loadOfflineSessionInfos twoRecords [([2], [some (messageTo "c")])] ["c"]).1.lookup "c" = some [kept] ∧
      IsLatest twoRecords [([2], [some (messageTo "c")])] "c" kept) ∧
    (loadOfflineSessionInfos twoRecords [([2], [some (messageTo "c")])] ["c"]).2 = [[1]] :=
  ⟨(retain_latest_of_records (by decide) (by decide)
      (by simp [twoRecords, Record.stale, eq_comm])).1 "c" (by decide), by decide +kernel⟩

/-- A message that does not name the client of the session is left out, although it is in the list with its key. -/
theorem retain_loses_message :
    ((loadOfflineSessionInfos twoRecords [([2], [some (messageTo "d")])] ["c"]).1.lookup "c").map
      (List.map fun kept => (kept.idKey, kept.offlineMessages)) = some [([2], [])] := by
  decide +kernel

end Startup

end FerroMq.SessionStorage
