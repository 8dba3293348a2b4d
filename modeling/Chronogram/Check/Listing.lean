import Chronogram.Check.Report
import Chronogram.Yaml.Writing

/-! Reports for readers, and the export of what was verified. -/

namespace Chronogram

def Diagnostic.listing (d : Diagnostic) : List String :=
  ("  " ++ d.text) :: (d.waveform.map ("      " ++ ·) ++
    if d.suggestion.isEmpty then [] else ["      hint: " ++ d.suggestion])

namespace Report

def listing (r : Report) (showVerified : Bool) : String :=
  let title := "Timing check" ++ (if r.design.isEmpty then "" else " of " ++ r.design)
  let results := r.results.flatMap fun result =>
    if result.isOk then if showVerified then ["[ok]   " ++ result.component] else []
    else ("[fail] " ++ result.component) :: result.diagnostics.flatMap (·.listing)
  Text.joined "\n" (title :: results ++ ["", r.summary, ""])

def exportDatum (r : Report) : Datum :=
  .object [("apiVersion", .str "timecraft/v1"), ("design", .str r.design),
    ("verified", .list (r.verified.map (·.datum)))]

def exportText (r : Report) : String := Yaml.document r.exportDatum

end Report

end Chronogram
