import FerroMq.Lib.Walk
import FerroMq.Lib.Wire

/-!
# Kicking a session in a broadcast cluster

`ClusterLockEntry.kick` asks the other nodes if there is no session at its own one, and takes the first answer
that is a `MessageReply::Kick`, also `Kick(NotExist)`: the session is found exactly if its node is the first to
answer (`kick_found_iff`).
-/

namespace FerroMq

open Lib List

/-! ## One node -/

/-- `OfflineSession`, with any type of offline information. -/
inductive OfflineSession (ι : Type)
  | exist (info : Option ι)
  | notExist
  deriving DecidableEq

inductive KickError
  /-- `try_lock` -/
  | locked
  /-- `recv kick result is …` -/
  | recv
  /-- `MqttError::None` -/
  | none
  deriving DecidableEq

/-- What the sender of a `Kick` gets from the session within five seconds. -/
inductive KickAnswer
  | kicked
  | dropped
  | timeout
  deriving DecidableEq

/-- A session, as a kick finds it. -/
structure Peer (ι : Type) where
  /-- `tx.is_closed()` -/
  closed : Bool
  answer : KickAnswer
  /-- The subscriptions can be read. -/
  subscriptions : Bool
  /-- `to_offline_info` -/
  offlineInfo : Option ι
  deriving DecidableEq

section

variable {ι : Type}

/-- The result, and what is in `peers` afterwards.  `_remove` takes the session out before it reads the
subscriptions that are to be cleared. -/
def LockEntry.kick (cleanStart clearSubscriptions : Bool) :
    Option (Peer ι) → Except KickError (OfflineSession ι) × Option (Peer ι)
  | none => (.ok .notExist, none)
  | some peer =>
    if peer.closed = false ∧ peer.answer = .dropped then (.error .recv, some peer)
    else if clearSubscriptions = true ∧ peer.subscriptions = false then (.ok .notExist, none)
    else if cleanStart then (.ok (.exist none), none)
    else (.ok (.exist peer.offlineInfo), none)

theorem LockEntry.isSome_of_kick {cleanStart clearSubscriptions : Bool} {peer : Option (Peer ι)}
    {info : Option ι} (h : (LockEntry.kick cleanStart clearSubscriptions peer).1 = .ok (.exist info)) :
    peer.isSome = true := by
  cases peer with
  | none => exact nomatch h
  | some peer => rfl

theorem LockEntry.kick_ok {cleanStart clearSubscriptions : Bool} {peer : Option (Peer ι)}
    {o : OfflineSession ι} (h : (LockEntry.kick cleanStart clearSubscriptions peer).1 = .ok o) :
    (LockEntry.kick cleanStart clearSubscriptions peer).2 = none := by
  cases peer with
  | none => rfl
  | some peer =>
    rw [LockEntry.kick] at h ⊢
    split_ifs at h ⊢ <;> rfl

structure BroadcastNode (ι : Type) where
  locked : Bool
  peer : Option (Peer ι)
  deriving DecidableEq

/-- `MessageReply`, as an answer to `Message::Kick`. -/
inductive KickReply (ι : Type)
  | kick (o : OfflineSession ι)
  | other

def BroadcastNode.handleKick (cleanStart : Bool) (node : BroadcastNode ι) :
    Except KickError (KickReply ι) :=
  if node.locked then .error .locked
  else (LockEntry.kick cleanStart true node.peer).1.map .kick

/-! ## The first answer -/

/-- `futures::future::select_ok`: the result of the first future that succeeds, in the order in which
they complete, and otherwise the last error.  There must be one. -/
def selectOk {ε α : Type} : List (Except ε α) → Except (Fault ε) α
  | [] => .error .panic
  | [.error e] => .error (.err e)
  | .ok a :: _ => .ok a
  | .error _ :: replies => selectOk replies

namespace MessageBroadcaster

/-- `select_ok`, with the replies in the order in which they come.  Without a client, `len() - 1`
overflows, or else there is nothing to select from. -/
def selectOk {R : Type} (checkFn : KickReply ι → Except KickError R)
    (replies : List (Except KickError (KickReply ι))) : Except (Fault KickError) R :=
  FerroMq.selectOk (replies.map (· >>= checkFn))

end MessageBroadcaster

def checkKick : KickReply ι → Except KickError (KickReply ι)
  | .kick o => .ok (.kick o)
  | .other => .error .none

def broadcastKick (replies : List (Except KickError (KickReply ι))) :
    Except (Fault KickError) (OfflineSession ι) :=
  match MessageBroadcaster.selectOk checkKick replies with
  | .ok (.kick kicked) => .ok kicked
  | .ok .other => .error (.err .none)
  | .error e => .error e

/-- The kick of a client that connects to `own`.  The replies of the other nodes come in the order of
`arrivals`.  A panic is one of the task that waits for them. -/
def ClusterLockEntry.kick (cleanStart clearSubscriptions : Bool) (own : BroadcastNode ι)
    (arrivals : List (BroadcastNode ι)) : Except (Fault KickError) (OfflineSession ι) :=
  match (LockEntry.kick cleanStart clearSubscriptions own.peer).1 with
  | .error e => .error (.err e)
  | .ok (.exist info) => .ok (.exist info)
  | .ok .notExist =>
    match broadcastKick (arrivals.map (BroadcastNode.handleKick cleanStart)) with
    | .ok kicked => .ok kicked
    | .error (.err _) => .ok .notExist
    | .error .panic => .error .panic

/-! ## Which session is found -/

/-- The session of the client is found, wherever it is. -/
structure Found (cleanStart : Bool) (nodes : List (BroadcastNode ι))
    (result : Except (Fault KickError) (OfflineSession ι)) : Prop where
  exist : ∀ node ∈ nodes, node.peer.isSome → ∀ o,
    (LockEntry.kick cleanStart true node.peer).1 = .ok o → result = .ok o
  notExist : (∀ node ∈ nodes, node.peer = none) → result = .ok .notExist
  noPanic : result ≠ .error .panic

variable {cleanStart clearSubscriptions : Bool} {own first : BroadcastNode ι}
  {rest nodes arrivals : List (BroadcastNode ι)}

theorem ClusterLockEntry.kick_cons {o : OfflineSession ι} (hown : own.peer = none)
    (hfree : first.locked = false) (hkick : (LockEntry.kick cleanStart true first.peer).1 = .ok o) :
    ClusterLockEntry.kick cleanStart clearSubscriptions own (first :: rest) = .ok o := by
  have hreply : first.handleKick cleanStart = .ok (.kick o) := by
    rw [BroadcastNode.handleKick, hfree, hkick]
    rfl
  have hbroadcast : broadcastKick ((first :: rest).map (BroadcastNode.handleKick cleanStart)) =
      .ok o := by
    rw [map_cons, hreply]
    cases rest <;> rfl
  rw [ClusterLockEntry.kick, hown, hbroadcast]
  rfl

theorem selectOk_mem {ε α : Type} {l : List (Except ε α)} (h : l ≠ []) :
    (∃ a, selectOk l = .ok a ∧ .ok a ∈ l) ∨ ∃ e, selectOk l = .error (.err e) := by
  fun_induction selectOk l with
  | case1 => exact absurd rfl h
  | case2 e => exact Or.inr ⟨e, rfl⟩
  | case3 a l => exact Or.inl ⟨a, rfl, mem_cons_self⟩
  | case4 e l hl ih =>
    rcases ih hl with ⟨a, ha, hmem⟩ | he
    · exact Or.inl ⟨a, ha, mem_cons_of_mem _ hmem⟩
    · exact Or.inr he

theorem ClusterLockEntry.kick_notExist (hown : own.peer = none) (hne : arrivals ≠ [])
    (hnone : ∀ node ∈ arrivals, ∀ o, (LockEntry.kick cleanStart true node.peer).1 = .ok o →
      o = .notExist) :
    ClusterLockEntry.kick cleanStart clearSubscriptions own arrivals = .ok .notExist := by
  have hreply : ∀ node ∈ arrivals, ∀ r, (node.handleKick cleanStart >>= checkKick) = .ok r →
      r = .kick .notExist := by
    intro node hnode r hr
    rw [BroadcastNode.handleKick] at hr
    split_ifs at hr
    · exact nomatch hr
    · cases hkick : (LockEntry.kick cleanStart true node.peer).1 with
      | error e =>
        rw [hkick] at hr
        exact nomatch hr
      | ok o =>
        rw [hkick, hnone node hnode o hkick] at hr
        exact (Except.ok.inj hr).symm
  rw [ClusterLockEntry.kick, hown]
  dsimp only [LockEntry.kick]
  rw [broadcastKick, MessageBroadcaster.selectOk, map_map]
  have hreplies : arrivals.map ((· >>= checkKick) ∘ BroadcastNode.handleKick cleanStart) ≠ [] :=
    fun hnil => hne (map_eq_nil_iff.1 hnil)
  rcases selectOk_mem hreplies with ⟨r, hr, hmem⟩ | ⟨e, he⟩
  · obtain ⟨node, hnode, hr'⟩ := mem_map.1 hmem
    rw [hr, hreply node hnode r hr']
  · rw [he]

/-- If at most one other node has a session of the client: it is found exactly if there is another node,
and the one whose kick gives the session is the first to answer. -/
theorem kick_found_iff (cleanStart clearSubscriptions : Bool) (own : BroadcastNode ι)
    (nodes arrivals : List (BroadcastNode ι)) (hown : own.peer = none) (hperm : arrivals.Perm nodes)
    (hfree : ∀ node ∈ nodes, node.locked = false)
    (hone : nodes.countP (fun node => node.peer.isSome) ≤ 1) :
    Found cleanStart nodes (ClusterLockEntry.kick cleanStart clearSubscriptions own arrivals) ↔
      nodes ≠ [] ∧ ∀ node ∈ nodes, ∀ info,
        (LockEntry.kick cleanStart true node.peer).1 = .ok (.exist info) →
          arrivals.head? = some node := by
  cases arrivals with
  | nil =>
    obtain rfl : nodes = [] := List.nil_perm.1 hperm
    refine iff_of_false (fun h => h.noPanic ?_) fun h => h.1 rfl
    rw [ClusterLockEntry.kick, hown]
    rfl
  | cons first rest =>
    have hfirst : first ∈ nodes := hperm.mem_iff.1 List.mem_cons_self
    have hok (o : OfflineSession ι) (ho : (LockEntry.kick cleanStart true first.peer).1 = .ok o) :=
      @ClusterLockEntry.kick_cons ι cleanStart clearSubscriptions own first rest o hown
        (hfree first hfirst) ho
    constructor
    · intro h
      refine ⟨List.ne_nil_of_mem hfirst, fun node hnode info hinfo => ?_⟩
      have hsome := LockEntry.isSome_of_kick hinfo
      have hresult := h.exist node hnode hsome _ hinfo
      cases hpeer : first.peer with
      | none =>
        -- a node without a session was faster
        rw [hok .notExist (by rw [hpeer]; rfl)] at hresult
        exact nomatch hresult
      | some peer =>
        rw [eq_of_countP_le_one hone hfirst hnode (by rw [hpeer]; rfl) hsome]
        rfl
    · rintro ⟨-, hhead⟩
      by_cases hexist : ∃ node ∈ nodes, ∃ info,
          (LockEntry.kick cleanStart true node.peer).1 = .ok (.exist info)
      · obtain ⟨node, hnode, info, hinfo⟩ := hexist
        obtain rfl : first = node := Option.some.inj (hhead node hnode info hinfo)
        have hsome := LockEntry.isSome_of_kick hinfo
        refine ⟨fun node' hnode' hsome' o ho => ?_, fun hnone => ?_, ?_⟩
        · rw [eq_of_countP_le_one hone hnode' hfirst hsome' hsome] at ho
          exact hok o ho
        · rw [hnone first hfirst] at hsome
          exact nomatch hsome
        · rw [hok _ hinfo]
          exact nofun
      · have hnone : ∀ node ∈ nodes, ∀ o, (LockEntry.kick cleanStart true node.peer).1 = .ok o →
            o = .notExist := by
          intro node hnode o ho
          cases o with
          | exist info => exact absurd ⟨node, hnode, info, ho⟩ hexist
          | notExist => rfl
        have hresult := @ClusterLockEntry.kick_notExist ι cleanStart clearSubscriptions own
          (first :: rest) hown (List.cons_ne_nil _ _) fun node hnode =>
            hnone node (hperm.mem_iff.1 hnode)
        refine ⟨fun node hnode _ o ho => ?_, fun _ => hresult, ?_⟩
        · rw [hresult, hnone node hnode o ho]
        · rw [hresult]
          exact nofun

/-- The node with the session is the first of three to answer. -/
theorem kick_found_first :
    let own : BroadcastNode ℕ := ⟨true, none⟩
    let holder : BroadcastNode ℕ := ⟨false, some ⟨false, .kicked, true, some 7⟩⟩
    let empty : BroadcastNode ℕ := ⟨false, none⟩
    Found false [empty, empty, holder]
      (ClusterLockEntry.kick false false own [holder, empty, empty]) :=
  (kick_found_iff false false _ _ _ rfl (by decide) (by decide) (by decide)).2 ⟨by decide, by
    intro node hnode info hinfo
    simp only [List.mem_cons, List.not_mem_nil, or_false] at hnode
    rcases hnode with rfl | rfl | rfl
    · exact nomatch hinfo
    · exact nomatch hinfo
    · rfl⟩

/-- A node without a session is the first of two to answer; and there is no other node. -/
theorem kick_not_found :
    let own : BroadcastNode ℕ := ⟨true, none⟩
    let holder : BroadcastNode ℕ := ⟨false, some ⟨false, .kicked, true, some 7⟩⟩
    (LockEntry.kick false true holder.peer).1 = .ok (.exist (some 7)) ∧
      ClusterLockEntry.kick false false own [⟨false, none⟩, holder] = .ok .notExist ∧
      ClusterLockEntry.kick false false own [] = .error .panic :=
  ⟨rfl, rfl, rfl⟩

end

end FerroMq
