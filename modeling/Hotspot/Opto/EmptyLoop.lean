-- SUMMARY: The removal of empty counted loops, and when the counter keeps its exit value.
import Hotspot.Opto.CountedLoopRuns

/-!
# Empty loops

`policy_do_remove_empty_loop` replaces the counter of a counted loop without a body by the
limit minus the stride, "the value it will have on the last iteration". The test then fails
and the back edge is never taken.
-/

namespace Hotspot.Opto

open TripCounter

variable {t : TripCounter} {c : CountedLoop}

/-- The increment that first reaches the exit limit, wrapped around or not. -/
def TripCounter.reach (t : TripCounter) : Int := t.counter (tripsTo t.ahead t.pace)

section Ordered

variable (hcanonical : t.canonical = some c) (hne : t.test ≠ .ne) (hstride : t.stride ≠ 0#32)

include hcanonical hne hstride

end Ordered

end Hotspot.Opto
