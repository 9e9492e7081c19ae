import ComponentIdentity.Files
import ComponentIdentity.Report.Format

/-! # Reading and writing reports

An input path must lead to a regular file of bounded size. An output path must
name a file in a directory that exists.
-/

namespace ComponentIdentity.Files

/-- The largest report file, in bytes. -/
def maxReportBytes : Nat := 100 * 1024 * 1024

def checkSize (files : Files) (path : Path) (limit : Nat) : Except Error Unit := do
  let size ← (files.sizeOf path).mapError (.file ∘ .metadata)
  if limit < size then throw (.serialization (.fileTooLarge size limit))

def inputLocation (files : Files) (path : Path) : Except Error Location :=
  match files.locate path with
  | .error fault => .error (.file (.filePath path fault))
  | .ok (_, .directory) => .error (.file (.notRegular path))
  | .ok (l, _) => .ok l

/-- The directory that a path names its file in; the working directory if it names none. -/
def outputDirectory (path : Path) : Path :=
  match path.parent? with
  | none | some "" => "."
  | some parent => parent

def outputLocation (files : Files) (path : Path) : Except Error Location :=
  let parent := outputDirectory path
  match files.locate parent with
  | .error fault => .error (.file (.outputDirectory parent fault))
  | .ok (l, .directory) =>
    match path.fileName? with
    | none => .error (.file .noFileName)
    | some name => .ok (l ++ [name])
  | .ok _ => .error (.file (.notDirectory parent))

/-- Reads a report in the given format, or in the one that its bytes show. -/
def readReport (files : Files) (path : Path) (format : Option ReportFormat) :
    Except Error Report := do
  let l ← files.inputLocation path
  files.checkSize l.toPath maxReportBytes
  let bytes ← (files.readAt l).mapError (.file ∘ .reading)
  Report.ofBytesIn (format.getD (ReportFormat.detect bytes)) bytes

end ComponentIdentity.Files
