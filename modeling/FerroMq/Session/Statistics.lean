import FerroMq.Session.Subscribe

/-!
# Counting subscriptions

`SessionSubs` changes the counters of the whole node with the subscriptions of one session.  What they count
beyond the session (`others`) is the same after each operation, so they are the totals over all sessions
(`statistics_exact`).
-/

namespace FerroMq

open Lib Codec

def SubscriptionOptions.hasSharedGroup (self : SubscriptionOptions) : Bool := self.sharedGroup.isSome

def Counter.incs (c : Counter) (n : ℤ) : Counter := ⟨c.count + n, Max.max c.max (c.count + n)⟩

/-- The counters of a node that depend on its subscriptions. -/
structure Stats where
  subscriptions : Counter := {}
  subscriptionsShared : Counter := {}
  deriving DecidableEq

def Stats.forget (stats : Stats) (opts : SubscriptionOptions) : Stats where
  subscriptions := stats.subscriptions.dec
  subscriptionsShared :=
    if opts.hasSharedGroup then stats.subscriptionsShared.dec else stats.subscriptionsShared

namespace SessionSubs

def add (self : SessionSubs) (stats : Stats) (topicFilter : TopicFilter) (opts : SubscriptionOptions) :
    Option SubscriptionOptions × SessionSubs × Stats :=
  let isShared := opts.hasSharedGroup
  let prev := self.lookup topicFilter
  (prev, self.insert topicFilter opts,
    match prev with
    | some prevOpts =>
      match prevOpts.hasSharedGroup, isShared with
      | true, false => { stats with subscriptionsShared := stats.subscriptionsShared.dec }
      | false, true => { stats with subscriptionsShared := stats.subscriptionsShared.inc }
      | false, false => stats
      | true, true => stats
    | none =>
      { subscriptions := stats.subscriptions.inc
        subscriptionsShared :=
          if isShared then stats.subscriptionsShared.inc else stats.subscriptionsShared })

def remove (self : SessionSubs) (stats : Stats) (topicFilter : TopicFilter) :
    Option (TopicFilter × SubscriptionOptions) × SessionSubs × Stats :=
  let removed := self.lookup topicFilter
  (removed.map (topicFilter, ·), self.erase topicFilter, (removed.map stats.forget).getD stats)

/-- `_drain`, for the filters in the order in which the map lists them. -/
def drain (self : SessionSubs) (stats : Stats) :
    List TopicFilter → List (TopicFilter × SubscriptionOptions) × SessionSubs × Stats
  | [] => ([], self, stats)
  | tf :: topicFilters =>
    let (sub, self, stats) := remove self stats tf
    let (subs, rest) := drain self stats topicFilters
    (sub.toList ++ subs, rest)

def extend (self : SessionSubs) (stats : Stats) (subs : List (TopicFilter × SubscriptionOptions)) :
    SessionSubs × Stats :=
  subs.foldl (fun x sub => (add x.1 x.2 sub.1 sub.2).2) (self, stats)

def clear (self : SessionSubs) (stats : Stats) (topicFilters : List TopicFilter) : SessionSubs × Stats :=
  (∅, (topicFilters.filterMap fun tf => self.lookup tf).foldl Stats.forget stats)

def len (self : SessionSubs) : ℕ := self.keys.card

def sharedLen (self : SessionSubs) : ℕ :=
  (self.keys.filter fun tf => (self.lookup tf).any SubscriptionOptions.hasSharedGroup).card

/-- The list has every filter of the map once. -/
def Lists (topicFilters : List TopicFilter) (self : SessionSubs) : Prop :=
  topicFilters.Nodup ∧ ∀ tf, tf ∈ topicFilters ↔ tf ∈ self.keys

/-! ## One session -/

/-- What the counters count beyond the subscriptions of one session. -/
def others (x : SessionSubs × Stats) : ℤ × ℤ :=
  (x.2.subscriptions.count - len x.1, x.2.subscriptionsShared.count - sharedLen x.1)

theorem sharedLen_eq_sum (self : SessionSubs) :
    sharedLen self = Map.sum self fun opts => opts.hasSharedGroup.toNat := by
  rw [sharedLen, Finset.card_filter]
  refine Finset.sum_congr rfl fun tf _ => ?_
  cases self.lookup tf with
  | none => rfl
  | some opts => cases h : opts.hasSharedGroup <;> simp [h]

variable (self : SessionSubs) (stats : Stats)

theorem others_add (tf : TopicFilter) (opts : SubscriptionOptions) :
    others (add self stats tf opts).2 = others (self, stats) := by
  simp only [others, add, len, Map.card_keys, sharedLen_eq_sum, Map.sum_insert, Map.sum_eq_add_erase self _ tf]
  cases self.lookup tf with
  | none => cases opts.hasSharedGroup <;> ext <;> simp <;> omega
  | some prev => cases h : prev.hasSharedGroup <;> cases opts.hasSharedGroup <;> ext <;> simp [h] <;> omega

theorem others_remove (tf : TopicFilter) : others (remove self stats tf).2 = others (self, stats) := by
  simp only [others, remove, len, Map.card_keys, sharedLen_eq_sum, Map.sum_eq_add_erase self _ tf]
  cases self.lookup tf with
  | none => ext <;> simp
  | some opts => cases h : opts.hasSharedGroup <;> ext <;> simp [h, Stats.forget] <;> omega

theorem others_drain (topicFilters : List TopicFilter) :
    others (drain self stats topicFilters).2 = others (self, stats) := by
  induction topicFilters generalizing self stats with
  | nil => rfl
  | cons tf topicFilters ih => exact (ih _ _).trans (others_remove self stats tf)

theorem others_extend (subs : List (TopicFilter × SubscriptionOptions)) :
    others (extend self stats subs) = others (self, stats) := by
  induction subs generalizing self stats with
  | nil => rfl
  | cons sub subs ih => exact (ih _ _).trans (others_add self stats sub.1 sub.2)

theorem drain_subs (topicFilters : List TopicFilter) :
    (drain self stats topicFilters).2.1 = Map.eraseAll self topicFilters := by
  induction topicFilters generalizing self stats with
  | nil => rfl
  | cons tf topicFilters ih => exact ih _ _

theorem drain_stats {topicFilters : List TopicFilter} (h : topicFilters.Nodup) :
    (drain self stats topicFilters).2.2 = (clear self stats topicFilters).2 := by
  induction topicFilters generalizing self stats with
  | nil => rfl
  | cons tf topicFilters ih =>
    obtain ⟨htf, h⟩ := List.nodup_cons.1 h
    refine (ih _ _ h).trans ?_
    have hrest : topicFilters.filterMap (fun tf' => (self.erase tf).lookup tf') =
        topicFilters.filterMap fun tf' => self.lookup tf' := by
      refine List.filterMap_congr fun tf' hmem => Finmap.lookup_erase_ne ?_
      exact ne_of_mem_of_not_mem hmem htf
    simp only [clear, hrest, List.filterMap_cons]
    cases self.lookup tf <;> rfl

/-- Clearing counts down as draining does. -/
theorem others_clear {topicFilters : List TopicFilter} (h : Lists topicFilters self) :
    others (clear self stats topicFilters) = others (self, stats) := by
  have hempty : (drain self stats topicFilters).2.1 = ∅ := by
    rw [drain_subs]
    refine Map.eq_empty_of_lookup fun tf => ?_
    by_cases hmem : tf ∈ topicFilters
    · exact Map.lookup_eraseAll_of_mem hmem
    · rw [Map.lookup_eraseAll_of_notMem hmem, Finmap.lookup_eq_none, ← Finmap.mem_keys, ← h.2]
      exact hmem
  rw [← others_drain self stats topicFilters, ← Prod.mk.eta (p := (drain self stats topicFilters).2), hempty,
    drain_stats self stats h.1]
  rfl

end SessionSubs

/-! ## All sessions -/

open SessionSubs

inductive SubsStep : SessionSubs × Stats → SessionSubs × Stats → Prop
  | add (self stats tf opts) : SubsStep (self, stats) (add self stats tf opts).2
  | remove (self stats tf) : SubsStep (self, stats) (remove self stats tf).2
  | drain (self stats tfs) : Lists tfs self → SubsStep (self, stats) (drain self stats tfs).2
  | extend (self stats subs) : SubsStep (self, stats) (extend self stats subs)
  | clear (self stats tfs) : Lists tfs self → SubsStep (self, stats) (clear self stats tfs)

theorem SubsStep.others_eq {x y : SessionSubs × Stats} (h : SubsStep x y) : others y = others x := by
  cases h with
  | add self stats tf opts => exact others_add self stats tf opts
  | remove self stats tf => exact others_remove self stats tf
  | drain self stats tfs => exact others_drain self stats tfs
  | extend self stats subs => exact others_extend self stats subs
  | clear self stats tfs hlists => exact others_clear self stats hlists

section

variable {S : Type} [DecidableEq S]

/-- The sessions and counters of all runs.  `Session::new` counts the subscriptions that it is given. -/
inductive SubsRun : Map S SessionSubs → Stats → Prop
  | start : SubsRun ∅ {}
  | new {sessions stats} (s : S) (subs : SessionSubs) : SubsRun sessions stats → sessions.lookup s = none →
      SubsRun (sessions.insert s subs)
        ⟨stats.subscriptions.incs (len subs), stats.subscriptionsShared.incs (sharedLen subs)⟩
  | step {sessions stats self self' stats'} (s : S) : SubsRun sessions stats → sessions.lookup s = some self →
      SubsStep (self, stats) (self', stats') → SubsRun (sessions.insert s self') stats'

/-- In every run the counters are the numbers of subscriptions and shared subscriptions of all sessions. -/
theorem statistics_exact {sessions : Map S SessionSubs} {stats : Stats} (h : SubsRun sessions stats) :
    stats.subscriptions.count = sessions.sum len ∧ stats.subscriptionsShared.count = sessions.sum sharedLen := by
  induction h with
  | start => exact ⟨rfl, rfl⟩
  | @new sessions stats s subs _ hnone ih =>
    rw [Map.sum_eq_add_erase sessions _ s, Map.sum_eq_add_erase sessions _ s, hnone] at ih
    simp only [Option.map_none, Option.getD_none] at ih
    simp only [Map.sum_insert, Counter.incs]
    omega
  | @step sessions stats self self' stats' s _ hself hstep ih =>
    have hothers := Prod.ext_iff.1 hstep.others_eq
    rw [Map.sum_eq_add_erase sessions _ s, Map.sum_eq_add_erase sessions _ s, hself] at ih
    simp only [Option.map_some, Option.getD_some] at ih
    simp only [others] at hothers
    simp only [Map.sum_insert]
    omega

end

def sharedOpts : SubscriptionOptions := .v3 { qos := .atMostOnce, sharedGroup := some "g", limitSubs := none }

/-- A new session with one shared subscription. -/
theorem statistics_exact_one : (add ∅ {} "a" sharedOpts).2.2.subscriptionsShared.count =
    Map.sum (((∅ : Map ℕ SessionSubs).insert 0 ∅).insert 0 (add ∅ {} "a" sharedOpts).2.1) sharedLen :=
  (statistics_exact (.step 0 (.new 0 ∅ .start rfl) rfl (.add ∅ {} "a" sharedOpts))).2

end FerroMq
