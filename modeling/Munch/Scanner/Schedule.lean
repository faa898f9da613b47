import Munch.Scanner.Basic

/-!
# Runs of a scanner under a schedule

A schedule says for each call of the scanner whether a stop is requested when the call is made.
A request that was made stays, so the schedules of interest are `false` some number of times
and `true` from then on.

## Main definitions

* `Scanner.calls`: the results of as many calls as the schedule has entries.
* `Scanner.raisedAfter`: the schedule of a request after a number of calls.
-/

namespace Munch.Scanner

/-- The results of calls in order, `none` where nothing was handed out. -/
def calls (s : Scanner) : List Bool → List (Option (Except ScanError Frame))
  | [] => []
  | stop :: rest => (s.next stop).1 :: (s.next stop).2.calls rest

/-- The scanner behind calls. -/
def afterCalls (s : Scanner) : List Bool → Scanner
  | [] => s
  | stop :: rest => (s.next stop).2.afterCalls rest

/-- A stop is requested after `k` of `n + k` calls. -/
def raisedAfter (k n : Nat) : List Bool := List.replicate k false ++ List.replicate n true

@[simp] theorem length_calls (s : Scanner) (schedule : List Bool) :
    (s.calls schedule).length = schedule.length := by
  induction schedule generalizing s with
  | nil => rfl
  | cons stop rest ih => simp [calls, ih]

theorem calls_append (s : Scanner) (a b : List Bool) :
    s.calls (a ++ b) = s.calls a ++ (s.afterCalls a).calls b := by
  induction a generalizing s with
  | nil => rfl
  | cons stop rest ih => simp [calls, afterCalls, ih]

theorem afterCalls_append (s : Scanner) (a b : List Bool) :
    s.afterCalls (a ++ b) = (s.afterCalls a).afterCalls b := by
  induction a generalizing s with
  | nil => rfl
  | cons stop rest ih => exact ih (s.next stop).2

end Munch.Scanner
