import FerroMq.Lib.Replace
import FerroMq.Router.Types
import FerroMq.Topic.TreeMatch

/-!
# Rules of the access control plugin

`config.rs` of `ferromq-acl`: a rule has criteria, all of which a client must meet, and topics.  `Rule.hit`
remembers the superuser flag of the last criterion only (`hit_eq`).  The topics are texts (`eqs`) and filters in
a tree, each with the client it was added for or, from the configuration, with none.
-/

namespace FerroMq.Acl

open Lib

abbrev Password := Bytes

/-- What a rule knows of a client. -/
structure Client where
  id : Id
  password : Option Password
  protocol : Option UInt8
  deriving DecidableEq

inductive Access
  | allow
  | deny
  deriving DecidableEq, Repr

inductive Control
  | all
  | connect
  | publish
  | subscribe
  | pubsub
  deriving DecidableEq, Repr

/-- A criterion for clients. -/
inductive User
  | username (name : UserName) (password : Option Password) (superuser : Bool)
  | clientid (clientid : ClientId)
  | ipaddr (ipaddr : String)
  | protocol (protocol : UInt8)
  | all
  deriving DecidableEq

/-- `(matched, superuser)` -/
def User.hit (self : User) (client : Client) (allow : Bool) : Bool × Bool :=
  match self with
  | all => (true, false)
  | username name₁ password₁ su =>
    match client.id.username, client.password, password₁, allow with
    | some name₂, some password₂, some password₁, true =>
      (name₁ = name₂ ∧ password₁ = password₂, su)
    | some name₂, some _, some _, false => (name₁ = name₂, false)
    | some name₂, _, none, true => (name₁ = name₂, su)
    | some name₂, _, none, false => (name₁ = name₂, false)
    | some _, none, some _, _ => (false, false)
    | none, _, _, _ => (false, false)
  | clientid id => (client.id.clientId = id, false)
  | ipaddr ip =>
    match client.id.remoteAddr with
    | some remoteAddr => (ip = remoteAddr.ip, false)
    | none => (false, false)
  | protocol protocol₁ =>
    match client.protocol with
    | some protocol₂ => (protocol₂ = protocol₁, false)
    | none => (false, false)

inductive TopicCfg
  | filter (topic : String)
  | eq (topic : String)
  deriving DecidableEq

/-- The topics of a rule.  A filter in the tree has the client it was added for as a value, and `⊥` if the
configuration has it. -/
structure Topics where
  all : Bool
  eqs : Finset String
  eqPlaceholders : List String
  tree : TopicTree (WithBot ClientId)
  placeholders : List String
  /-- Filters are parsed before they are added. -/
  parsed : ∀ f, tree.get f ≠ ∅ → (⟨f⟩ : Topic).Parsed

namespace Topics

def phC : String := "%c"

def phU : String := "%u"

theorem parsed_insert {tree : TopicTree (WithBot ClientId)}
    (h : ∀ f, tree.get f ≠ ∅ → (⟨f⟩ : Topic).Parsed) {t : Topic} (ht : t.Parsed)
    (v : WithBot ClientId) (f : List Level) (hf : (tree.insert t v).1.get f ≠ ∅) :
    (⟨f⟩ : Topic).Parsed := by
  rw [TopicTree.get_insert] at hf
  split_ifs at hf with heq
  · exact TopicTree.mk_eq_iff.2 heq ▸ ht
  · exact h f hf

def insert (self : Topics) (t : Topic) (ht : t.Parsed) (v : WithBot ClientId) : Topics :=
  { self with
    tree := (self.tree.insert t v).1
    parsed := parsed_insert self.parsed ht v }

def addEq (self : Topics) (topic : String) : Topics := { self with eqs := Insert.insert topic self.eqs }

def bare (all : Bool) : Topics where
  all := all
  eqs := ∅
  eqPlaceholders := []
  tree := Trie.empty
  placeholders := []
  parsed f hf := by simp [Payload.vacant] at hf

def hasPlaceholder (topic : String) : Bool := strContains topic phU || strContains topic phC

def addCfg (self : Topics) : TopicCfg → Except TopicError Topics
  | .filter topic =>
    if hasPlaceholder topic then
      .ok { self with placeholders := self.placeholders ++ [topic] }
    else
      match h : Topic.fromStr topic with
      | .ok t => .ok (self.insert t ⟨topic, h⟩ ⊥)
      | .error e => .error e
  | .eq topic =>
    if hasPlaceholder topic then
      .ok { self with eqPlaceholders := self.eqPlaceholders ++ [topic] }
    else .ok (self.addEq topic)

/-- `TryFrom`, for topics that have been read from the configuration; without topics a rule is about all
of them. -/
def tryFrom : Option (List TopicCfg) → Except TopicError Topics
  | none => .ok (bare true)
  | some topics => topics.foldlM addCfg (bare false)

def isMatch (self : Topics) (topicFilter : Topic) (topicFilterStr : String) (clientId : ClientId) : Bool :=
  self.all || decide (topicFilterStr ∈ self.eqs) ||
    (self.tree.iter topicFilter).any fun item => item.2.any fun cid => cid = ↑clientId || cid = ⊥

end Topics

structure Rule where
  access : Access
  users : List User
  control : Control
  topics : Topics

namespace Rule

variable (client : Client) (allow : Bool)

def hitLoop : Bool → List User → Bool × Bool
  | superuser, [] => (true, superuser)
  | _, user :: users =>
    let (hit, superuser) := user.hit client allow
    if !hit then (false, false) else hitLoop superuser users

/-- `(all_users_hit, superuser)` -/
def hit (self : Rule) (client : Client) (allow : Bool) : Bool × Bool :=
  hitLoop client allow false self.users

def addTopicFilter (self : Rule) (topicFilter : String) (clientid : ClientId) : Except TopicError Rule :=
  match h : Topic.fromStr topicFilter with
  | .ok t => .ok { self with topics := self.topics.insert t ⟨topicFilter, h⟩ ↑clientid }
  | .error e => .error e

def addTopicToEqs (self : Rule) (topic : String) : Rule := { self with topics := self.topics.addEq topic }

end Rule

/-! ## Criteria -/

namespace User

/-- The client meets the criterion.  A password is compared by rules that allow; for rules that deny it
is enough that there is one. -/
def Meets (client : Client) (allow : Bool) : User → Prop
  | all => True
  | username name password _ => client.id.username = some name ∧
      ∀ p, password = some p → ∃ p', client.password = some p' ∧ (allow = true → p = p')
  | clientid id => client.id.clientId = id
  | ipaddr ip => ∃ addr, client.id.remoteAddr = some addr ∧ addr.ip = ip
  | protocol p => client.protocol = some p

/-- The criterion makes the client a superuser. -/
def Grants (allow : Bool) : User → Prop
  | username _ _ superuser => allow = true ∧ superuser = true
  | _ => False

instance (allow : Bool) (u : User) : Decidable (u.Grants allow) := by
  cases u <;> unfold Grants <;> infer_instance

variable {client : Client} {allow : Bool} {u : User}

theorem hit_fst_iff : (u.hit client allow).1 = true ↔ u.Meets client allow := by
  cases u with
  | all | clientid => simp [hit, Meets]
  | ipaddr ip =>
    cases h : client.id.remoteAddr with
    | none => simp [hit, Meets, h]
    | some addr => simp [hit, Meets, h, eq_comm]
  | protocol p =>
    cases h : client.protocol with
    | none | some q => simp [hit, Meets, h]
  | username name password superuser =>
    cases h : client.id.username with
    | none => simp [hit, Meets, h]
    | some name₂ =>
      have hcomm : name₂ = name ↔ name = name₂ := eq_comm
      cases hp : client.password <;> cases password <;> cases allow <;>
        simp [hit, Meets, h, hp, hcomm]

theorem hit_snd_iff (h : u.Meets client allow) : (u.hit client allow).2 = true ↔ u.Grants allow := by
  cases u with
  | all | clientid => simp [hit, Grants]
  | ipaddr ip =>
    obtain ⟨addr, haddr, -⟩ := h
    simp [hit, Grants, haddr]
  | protocol p => simp [hit, Grants, show client.protocol = some p from h]
  | username name password superuser =>
    obtain ⟨hname, hpassword⟩ := h
    cases password with
    | none => cases allow <;> simp [hit, Grants, hname]
    | some p =>
      obtain ⟨p', hp', -⟩ := hpassword p rfl
      cases allow <;> simp [hit, Grants, hname, hp']

end User

/-! ## Criteria of a rule -/

namespace Rule

variable {client : Client} {allow : Bool}

theorem hitLoop_cons (superuser : Bool) (u : User) (users : List User) :
    hitLoop client allow superuser (u :: users) =
      if !(u.hit client allow).1 then (false, false)
      else hitLoop client allow (u.hit client allow).2 users := rfl

theorem hitLoop_of_meets (superuser : Bool) {users : List User}
    (h : ∀ u ∈ users, u.Meets client allow) :
    hitLoop client allow superuser users =
      (true, (users.getLast?.map fun u => decide (u.Grants allow)).getD superuser) := by
  induction users generalizing superuser with
  | nil => rfl
  | cons u users ih =>
    have hu := h u List.mem_cons_self
    have hsu : (u.hit client allow).2 = decide (u.Grants allow) := by
      rw [Bool.eq_iff_iff, User.hit_snd_iff hu, decide_eq_true_iff]
    rw [hitLoop_cons, User.hit_fst_iff.2 hu, hsu, Bool.not_true, if_neg Bool.false_ne_true,
      ih _ fun v hv => h v (List.mem_cons_of_mem _ hv)]
    cases users with
    | nil => rfl
    | cons v users =>
      rw [List.getLast?_cons_cons, List.getLast?_eq_some_getLast (List.cons_ne_nil v users)]
      rfl

theorem hitLoop_of_not_meets (superuser : Bool) {users : List User}
    (h : ¬ ∀ u ∈ users, u.Meets client allow) :
    hitLoop client allow superuser users = (false, false) := by
  induction users generalizing superuser with
  | nil => simp at h
  | cons u users ih =>
    rw [List.forall_mem_cons] at h
    rw [hitLoop_cons]
    by_cases hu : u.Meets client allow
    · rw [User.hit_fst_iff.2 hu, Bool.not_true, if_neg Bool.false_ne_true]
      exact ih _ fun hall => h ⟨hu, hall⟩
    · rw [Bool.eq_false_iff.2 (mt User.hit_fst_iff.1 hu), Bool.not_false, if_pos rfl]

open Classical in
theorem hit_eq (self : Rule) : self.hit client allow =
    if ∀ u ∈ self.users, u.Meets client allow then
      (true, (self.users.getLast?.map fun u => decide (u.Grants allow)).getD false)
    else (false, false) := by
  split_ifs with h
  · exact hitLoop_of_meets false h
  · exact hitLoop_of_not_meets false h

/-- What `hit` is to report: whether the client meets all criteria, and whether it then meets one that
grants superuser, whatever the order of the criteria. -/
def HitSpec (self : Rule) (client : Client) (allow : Bool) : Prop :=
  ((self.hit client allow).1 = true ↔ ∀ u ∈ self.users, u.Meets client allow) ∧
    ((self.hit client allow).2 = true ↔ (self.hit client allow).1 = true ∧
      ∃ u ∈ self.users, u.Meets client allow ∧ u.Grants allow) ∧
    ∀ users, users.Perm self.users → { self with users }.hit client allow = self.hit client allow

theorem exists_perm_getLast {users : List User} {u : User} (h : u ∈ users) :
    ∃ users' : List User, users'.Perm users ∧ users'.getLast? = some u := by
  obtain ⟨before, after, rfl⟩ := List.append_of_mem h
  exact ⟨before ++ after ++ [u], by grind, by simp⟩

/-- A rule reports the right flags in every order exactly if the client does not meet its criteria or
the criteria agree on whether they grant superuser. -/
theorem hit_iff (self : Rule) (client : Client) (allow : Bool) :
    self.HitSpec client allow ↔ (¬ ∀ u ∈ self.users, u.Meets client allow) ∨
      (∀ u ∈ self.users, ¬ u.Grants allow) ∨ ∀ u ∈ self.users, u.Grants allow := by
  have hperm : ∀ {users : List User}, users.Perm self.users →
      ((∀ u ∈ users, u.Meets client allow) ↔ ∀ u ∈ self.users, u.Meets client allow) := fun hp =>
    forall_congr' fun u => by rw [hp.mem_iff]
  unfold HitSpec
  by_cases hall : ∀ u ∈ self.users, u.Meets client allow
  · constructor
    · rintro ⟨-, hsuper, hsame⟩
      by_contra hmixed
      simp only [not_or, not_forall, not_not] at hmixed
      obtain ⟨-, ⟨u, hu, hgrants⟩, v, hv, hnot⟩ := hmixed
      obtain ⟨users, hp, hlast⟩ := exists_perm_getLast hv
      -- with `v` at the end the flag is lost
      have hlost : (self.hit client allow).2 = false := by
        rw [← hsame users hp, hit_eq, if_pos ((hperm hp).2 hall)]
        simp [hlast, hnot]
      rw [hsuper.2 ⟨by rw [hit_eq, if_pos hall], u, hu, hall u hu, hgrants⟩] at hlost
      cases hlost
    · intro h
      -- the flag of the last criterion is that of any other
      have hflag : ∀ {users : List User}, users.Perm self.users →
          ((users.getLast?.map fun u => decide (u.Grants allow)).getD false = true ↔
            ∃ u ∈ self.users, u.Grants allow) := by
        intro users hp
        cases hlast : users.getLast? with
        | none =>
          rw [List.getLast?_eq_none_iff] at hlast
          subst hlast
          simp [hp.symm.eq_nil]
        | some v =>
          have hv : v ∈ self.users := hp.mem_iff.1 (List.mem_of_getLast? hlast)
          have hagree := h.resolve_left (not_not.2 hall)
          simp only [Option.map_some, Option.getD_some, decide_eq_true_iff]
          constructor
          · exact fun hg => ⟨v, hv, hg⟩
          · rintro ⟨u, hu, hg⟩
            exact hagree.elim (fun hn => absurd hg (hn u hu)) fun hy => hy v hv
      refine ⟨by rw [hit_eq, if_pos hall]; simpa using hall, ?_, fun users hp => ?_⟩
      · rw [hit_eq, if_pos hall, hflag (List.Perm.refl _)]
        simp only [true_and]
        exact exists_congr fun u => and_congr_right fun hu => by simp [hall u hu]
      · rw [hit_eq, hit_eq, if_pos hall, if_pos ((hperm hp).2 hall)]
        exact Prod.ext rfl (Bool.eq_iff_iff.2 ((hflag hp).trans (hflag (List.Perm.refl _)).symm))
  · refine iff_of_true ⟨?_, ?_, fun users hp => ?_⟩ (.inl hall)
    · simp [hit_eq, hall]
    · simp [hit_eq, hall]
    · rw [hit_eq, hit_eq, if_neg hall, if_neg (mt (hperm hp).1 hall)]

/-- A rule that makes a user superuser and has a criterion for the client id after that. -/
theorem not_hitSpec_clientid :
    let rule : Rule :=
      ⟨.allow, [.username "admin" none true, .clientid "console"], .all, Topics.bare true⟩
    let client : Client := ⟨{ Id.ofClient 1 "console" 0 with username := some "admin" }, none, none⟩
    rule.hit client true = (true, false) ∧ ¬ rule.HitSpec client true := by
  intro rule client
  refine ⟨by decide +kernel, ?_⟩
  rintro ⟨-, hsuper, -⟩
  have hflag : (rule.hit client true).2 = true :=
    hsuper.2 ⟨by decide +kernel, .username "admin" none true, by simp [rule], by simp [User.Meets, client],
      by simp [User.Grants]⟩
  exact absurd hflag (by decide +kernel)

end Rule

end FerroMq.Acl
