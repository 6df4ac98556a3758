import Mathlib

/-!
# Replacing parts of a text

`replaceAll` is `str::replace` for patterns that are not empty.  `fillAll` replaces several patterns at once,
marks what it has put in and never looks at that again.
-/

namespace FerroMq.Lib

variable {α : Type} [DecidableEq α]

/-- Replace the occurrences of `pat` behind the next `skip` elements, which belong to an occurrence that has
been replaced already. -/
def replaceAll (pat rep : List α) : ℕ → List α → List α
  | _, [] => []
  | skip + 1, _ :: s => replaceAll pat rep skip s
  | 0, a :: s =>
    if pat.isPrefixOf (a :: s) then rep ++ replaceAll pat rep (pat.length - 1) s
    else a :: replaceAll pat rep 0 s

/-- Replace the occurrences of the patterns by their values, and mark the elements of the values. -/
def fillAll (pats : List (List α × List α)) : ℕ → List α → List (α × Bool)
  | _, [] => []
  | skip + 1, _ :: s => fillAll pats skip s
  | 0, a :: s =>
    match pats.find? fun p => p.1.isPrefixOf (a :: s) with
    | some p => p.2.map (·, true) ++ fillAll pats (p.1.length - 1) s
    | none => (a, false) :: fillAll pats 0 s

theorem replaceAll_eq_self {pat : List α} (rep : List α) {s : List α} (h : ¬ pat <:+: s) :
    replaceAll pat rep 0 s = s := by
  induction s with
  | nil => rfl
  | cons a s ih =>
    have hfirst : pat.isPrefixOf (a :: s) = false :=
      Bool.eq_false_iff.2 fun hp => h (List.isPrefixOf_iff_prefix.1 hp).isInfix
    rw [replaceAll, hfirst, if_neg Bool.false_ne_true, ih fun hs => h (hs.trans (List.suffix_cons a s).isInfix)]

def strContains (s pat : String) : Bool := decide (pat.toList <:+: s.toList)

def strReplace (s pat rep : String) : String :=
  String.ofList (replaceAll pat.toList rep.toList 0 s.toList)

theorem strReplace_eq_self {s pat : String} (rep : String) (h : strContains s pat = false) :
    strReplace s pat rep = s := by
  rw [strReplace, replaceAll_eq_self _ (of_decide_eq_false h), String.ofList_toList]

example : strReplace "a/%c/%c%%c" "%c" "x%c" = "a/x%c/x%c%x%c" := by decide +kernel

end FerroMq.Lib
