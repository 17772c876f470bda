/-
  MixinCss.Report.Format

  The forms in which the result of a check is printed.
-/

import MixinCss.Report.Json
import MixinCss.Report.Statistics

namespace MixinCss

inductive ReportFormat where
  /-- The issues and how many there are. -/
  | issues
  /-- The statistics only. -/
  | summary
  /-- The issues and the statistics. -/
  | full
  /-- A JSON document. -/
  | json
deriving DecidableEq, Repr

namespace ReportFormat

def all : List ReportFormat := [.issues, .summary, .full, .json]

def name : ReportFormat → String
  | .issues => "issues"
  | .summary => "summary"
  | .full => "full"
  | .json => "json"

/-- The format with a name. -/
def ofName? (t : Text) : Option ReportFormat := all.find? fun f => utf8 f.name == t

/-- The format that is asked for. Other names, and a run that prints nothing,
    take the first one. -/
def choose (asked : Text) (quiet : Bool) : ReportFormat :=
  if quiet then .issues else (ofName? asked).getD .issues

end ReportFormat

/-- The text of a report. -/
def Findings.report (r : Findings) (format : ReportFormat) (c : ReportConfig)
    (palette : Palette) (timestamp : Text) : Text :=
  let issues :=
    let (text, truncated) := Issue.renderAll c palette r.issues
    text ++ r.summary palette truncated
  match format with
  | .issues => issues
  | .summary => r.statistics palette
  | .full => issues ++ r.statistics palette
  | .json => Json.render 0 (r.toJson timestamp) ++ [ascii '\n']

end MixinCss
