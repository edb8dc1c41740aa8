import Mathlib.Algebra.Order.Ring.Int
import Mathlib.Tactic.Ring

/-!
# Time values and the delay of the kernel timer

`struct timespec` with its normal form as a field, and the arithmetic by which `set_timer`
turns an absolute deadline into the milliseconds of an `EVFILT_TIMER`.
-/

set_option autoImplicit false

namespace DeltaPorts.Wayland

/-- A normalised `struct timespec`. -/
structure Timespec where
  tvSec : Int
  tvNsec : Int
  nsec_nonneg : 0 ≤ tvNsec
  nsec_lt : tvNsec < 1000000000
  deriving DecidableEq

namespace Timespec

/-- The time in nanoseconds. -/
def ns (t : Timespec) : Int := t.tvSec * 1000000000 + t.tvNsec

def ofNs (n : Int) : Timespec where
  tvSec := n / 1000000000
  tvNsec := n % 1000000000
  nsec_nonneg := Int.emod_nonneg n (by decide)
  nsec_lt := Int.emod_lt_of_pos n (by decide)

@[simp] theorem ns_ofNs (n : Int) : (ofNs n).ns = n := by
  simp only [ns, ofNs]
  omega

end Timespec

/-- One millisecond, and the 2 ms by which a callback may precede its deadline. -/
def millisecond : Int := 1000000
def tolerance : Int := 2000000

def msec (n : Int) : Timespec := .ofNs (n * millisecond)

/-- `rel_deadline` of `set_timer`: the milliseconds from `now` to `deadline`, to the nearest. -/
def relDeadline (now deadline : Timespec) : Int :=
  let diffSec := deadline.tvSec - now.tvSec
  let diffNsec := deadline.tvNsec - now.tvNsec
  let diff := if diffNsec < 0 then (diffSec - 1, diffNsec + 1000000000) else (diffSec, diffNsec)
  let rel := diff.1 * 1000 + diff.2.tdiv 1000000
  if diff.2.tmod 1000000 > 499999 then rel + 1 else rel

/-- Rounding to the nearest millisecond moves the timer by at most half of one. -/
theorem relDeadline_bounds (now deadline : Timespec) :
    deadline.ns - now.ns - 499999 ≤ relDeadline now deadline * millisecond ∧
      relDeadline now deadline * millisecond ≤ deadline.ns - now.ns + 500000 := by
  have h1 := now.nsec_nonneg
  have h2 := now.nsec_lt
  have h3 := deadline.nsec_nonneg
  have h4 := deadline.nsec_lt
  unfold relDeadline Timespec.ns millisecond
  by_cases hn : deadline.tvNsec - now.tvNsec < 0
  · have hp : 0 ≤ deadline.tvNsec - now.tvNsec + 1000000000 := by omega
    simp only [hn, if_true, Int.tdiv_eq_ediv_of_nonneg hp, Int.tmod_eq_emod_of_nonneg hp]
    split <;> constructor <;> omega
  · have hp : 0 ≤ deadline.tvNsec - now.tvNsec := by omega
    simp only [hn, if_false, Int.tdiv_eq_ediv_of_nonneg hp, Int.tmod_eq_emod_of_nonneg hp]
    split <;> constructor <;> omega

end DeltaPorts.Wayland
