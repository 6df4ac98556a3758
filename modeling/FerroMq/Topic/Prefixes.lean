import FerroMq.Router.Types

/-!
# Prefixes of topics

The first levels of a topic filter may ask for a shared subscription (`$share`) or limit the subscribers
(`$limit`, `$exclusive`), and those of a topic name may delay a message (`$delayed`).
-/

namespace FerroMq

open Codec

def splitnLevels : ℕ → List Char → List (List Char)
  | 0, _ => []
  | 1, s => [s]
  | n + 2, s =>
    match s.dropWhile (· ≠ '/') with
    | [] => [s]
    | _ :: rest => s.takeWhile (· ≠ '/') :: splitnLevels (n + 1) rest

def splitn (n : ℕ) (s : String) : List String := (splitnLevels n s.toList).map String.ofList

def trimStartLoop (pattern : List Char) : ℕ → List Char → List Char
  | 0, s => s
  | n + 1, s =>
    if pattern.isPrefixOf s then trimStartLoop pattern n (s.drop pattern.length) else s

def trimStartMatches (s pattern : String) : String :=
  String.ofList (trimStartLoop pattern.toList s.length s.toList)

inductive ParseIntError
  | empty
  | invalidDigit
  | posOverflow
  deriving DecidableEq

def ParseIntError.message : ParseIntError → String
  | .empty => "cannot parse integer from empty string"
  | .invalidDigit => "invalid digit found in string"
  | .posOverflow => "number too large to fit in target type"

def parseDigits (bound : ℕ) : ℕ → List Char → Except ParseIntError ℕ
  | n, [] => .ok n
  | n, c :: s =>
    if c.isDigit then
      let n := 10 * n + (c.toNat - '0'.toNat)
      if n < bound then parseDigits bound n s else .error .posOverflow
    else .error .invalidDigit

def parseUnsigned (bound : ℕ) (s : String) : Except ParseIntError ℕ :=
  match s.toList with
  | [] => .error .empty
  | ['+'] => .error .invalidDigit
  | '+' :: digits => parseDigits bound 0 digits
  | digits => parseDigits bound 0 digits

/-! ## Topic filters -/

inductive FilterError
  /-- With the text "Illegal topic filter". -/
  | illegal (topicFilter : TopicFilter)
  /-- With the text "Shared subscription is not enabled". -/
  | sharedNotEnabled (topicFilter : TopicFilter)
  /-- With the text "Limit subscription is not enabled". -/
  | limitNotEnabled (topicFilter : TopicFilter)
  deriving DecidableEq

/-- The levels behind `$share`, `$limit` or `$exclusive`, or the filter as it is. -/
def parseLevels (topicFilter : TopicFilter) (sharedSubscription limitSubscription : Bool) :
    Except FilterError (TopicFilter × Option SharedGroup × Option ℕ) :=
  match splitn 3 topicFilter with
  | "$share" :: levels =>
    match sharedSubscription, levels with
    | true, group :: tf :: _ => .ok (tf, some group, none)
    | true, _ => .error (.illegal topicFilter)
    | false, _ => .error (.sharedNotEnabled topicFilter)
  | "$limit" :: levels =>
    match limitSubscription, levels with
    | true, limit :: tf :: _ =>
      match parseUnsigned UInt64.size limit with
      | .ok limit => .ok (tf, none, some limit)
      | .error _ => .error (.illegal topicFilter)
    | true, _ => .error (.illegal topicFilter)
    | false, _ => .error (.limitNotEnabled topicFilter)
  | "$exclusive" :: _ =>
    if limitSubscription then .ok (trimStartMatches topicFilter "$exclusive/", none, some 1)
    else .error (.limitNotEnabled topicFilter)
  | _ => .ok (topicFilter, none, none)

def parseTopicFilter (topicFilter : TopicFilter) (sharedSubscription limitSubscription : Bool) :
    Except FilterError (TopicFilter × Option SharedGroup × Option ℕ) := do
  let (topic, sharedGroup, limitSubs) ←
    if sharedSubscription || limitSubscription then
      parseLevels topicFilter sharedSubscription limitSubscription
    else .ok (topicFilter, none, none)
  if topic = "" then throw (.illegal topicFilter)
  return (topic, sharedGroup, limitSubs)

theorem splitnLevels_append {n : ℕ} {l rest : List Char} (h : '/' ∉ l) :
    splitnLevels (n + 2) (l ++ '/' :: rest) = l :: splitnLevels (n + 1) rest := by
  have hl : ∀ c ∈ l, decide (c ≠ '/') = true := fun c hc => decide_eq_true fun heq => h (heq ▸ hc)
  rw [splitnLevels, List.dropWhile_append_of_pos hl, List.takeWhile_append_of_pos hl]
  simp

theorem splitnLevels_of_notMem {n : ℕ} {s : List Char} (h : '/' ∉ s) : splitnLevels (n + 1) s = [s] := by
  cases n with
  | zero => rfl
  | succ n =>
    have hdrop : s.dropWhile (· ≠ '/') = [] :=
      List.dropWhile_eq_nil_iff.2 fun c hc => decide_eq_true fun heq => h (heq ▸ hc)
    rw [splitnLevels, hdrop]

theorem splitn_of_notMem {n : ℕ} {s : String} (h : '/' ∉ s.toList) : splitn (n + 1) s = [s] := by
  rw [splitn, splitnLevels_of_notMem h]
  simp

theorem splitn_append {n : ℕ} {a rest : String} (h : '/' ∉ a.toList) :
    splitn (n + 2) (a ++ "/" ++ rest) = a :: splitn (n + 1) rest := by
  have htext : (a ++ "/" ++ rest).toList = a.toList ++ '/' :: rest.toList := by simp
  rw [splitn, htext, splitnLevels_append h, List.map_cons, String.ofList_toList, splitn]

theorem splitn_three {a b c : String} (ha : '/' ∉ a.toList) (hb : '/' ∉ b.toList) :
    splitn 3 (a ++ "/" ++ (b ++ "/" ++ c)) = [a, b, c] := by
  rw [splitn_append ha, splitn_append hb]
  simp [splitn, splitnLevels]

theorem splitn_share {group f : String} (h : '/' ∉ group.toList) :
    splitn 3 ("$share/" ++ group ++ "/" ++ f) = ["$share", group, f] := by
  have htext : "$share/" ++ group ++ "/" ++ f = "$share" ++ "/" ++ (group ++ "/" ++ f) := by
    simp [String.append_assoc]
  rw [htext, splitn_three (by decide) h]

/-! ## Delayed messages -/

/-- `DelayedSender::parse`: the topic, and the interval in seconds. -/
def parseDelayed (topic : String) : Except String (String × Option ℕ) :=
  match splitn 3 topic with
  | ["$delayed", delayInterval, rest] =>
    match parseUnsigned UInt32.size delayInterval with
    | .ok seconds => .ok (rest, some seconds)
    | .error e => .error ("the delay time of $delayed must be an integer, topic: " ++ topic ++ ", " ++
        e.message)
  | _ => .ok (topic, none)

end FerroMq
