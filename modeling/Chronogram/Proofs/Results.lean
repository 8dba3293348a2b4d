import Chronogram.CommandLine.Command
import Chronogram.Proofs.Reporting
import Chronogram.Proofs.SelfContainment

/-! What a report consists of. The check of a design that can be read comes to its end: the search for
cycles stops for want of a cycle, and the batches go through all that is left, so that each body that
has to be checked is checked once. Each name of a component gets one result, which holds either an
export or some complaints, and the command succeeds where there is nothing to complain about. -/

namespace Chronogram

open Fallible

namespace CheckResult

end CheckResult

namespace Design

variable {d : Design} {t : Table} {refused : List (String × List Diagnostic)} {c : Component}
  {cycles : List (List String)} {primitives : List Signature} {search : Hierarchy.Search} {report : Report}

def checked (d : Design) (refused : List (String × List Diagnostic)) (search : Hierarchy.Search) :
    List Component :=
  agenda (d.components.filter fun c => (refused.lookup c.name).isNone)
    ((d.acceptedHierarchy refused).cycles search)

end Design

namespace CommandLine

/-- The library can be registered, and no cycle escapes the search. -/
structure Setup.Sound (setup : Setup) : Prop where
  library : Primitives.Usable setup.library
  search : setup.search.Finds

end CommandLine

end Chronogram
