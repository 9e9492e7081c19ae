import ComponentIdentity.Report.Binary
import ComponentIdentity.Report.Document

/-! # Report formats

A report is written as JSON or in binary. The magic bytes tell which.
-/

namespace ComponentIdentity

inductive ReportFormat where
  | json
  | binary
  deriving DecidableEq, Repr

namespace ReportFormat

def name : ReportFormat → String
  | json => "json"
  | binary => "binary"

def parse (value : String) : Except Error ReportFormat :=
  if value = "json" then .ok json
  else if value = "binary" ∨ value = "bin" then .ok binary
  else .error (.config (.reportFormat value))

def detect (bytes : Bytes) : ReportFormat :=
  if Header.magicBytes.isPrefixOf bytes then binary else json

end ReportFormat

def Report.ofBytesIn (format : ReportFormat) (bytes : Bytes) : Except Error Report :=
  match format with
  | .json => Report.ofJson bytes
  | .binary => Report.ofBytes bytes

end ComponentIdentity
