import ComponentIdentity.CommandLine

/-! # The program

Takes the files that an invocation names from the disk, runs the command line on
them, and brings what changed back to the disk.
-/

namespace ComponentIdentity.Disk

/-- Adds what the disk holds along a path. -/
def load (files : Files) (path : Path) : IO Files := do
  let here ← IO.currentDir
  let mut files := files
  let mut l := files.origin path
  for name in path.segments do
    if name = ".." then l := l.dropLast
    else if name ≠ "" && name ≠ "." then
      l := l ++ [name]
      let place := here / l.toPath
      if ← place.isDir then files := files.put l .directory
      else if ← place.pathExists then
        files := files.put l (.ofBytes (← IO.FS.readBinFile place).data.toList)
  return files

/-- Brings the places that differ back to the disk. -/
def save (before after : Files) : IO Unit := do
  for (l, _) in before.nodes.toList do
    if !after.nodes.contains l then IO.FS.removeFile l.toPath
  for (l, node) in after.nodes.toList do
    if before.nodes[l]? ≠ some node then
      match node.bytes? with
      | some bytes => IO.FS.writeBinFile l.toPath ⟨bytes.toArray⟩
      | none => IO.FS.createDirAll l.toPath

def environment : IO Environment := do
  let database ← IO.getEnv "COMPREF_DATABASE"
  let logFormat ← IO.getEnv "COMPREF_LOG_FORMAT"
  return fun name =>
    if name = "COMPREF_DATABASE" then database
    else if name = "COMPREF_LOG_FORMAT" then logFormat
    else none

def paths : Command → List Path
  | .resolve report _ _ => [report]
  | .lookup report _ _ => [report]
  | .encode input output => [input, output]
  | .index => []
  | .init _ => []

/-- The files that an invocation may touch. -/
def gather (args : List String) (env : Environment) : IO Files := do
  let here ← IO.currentDir
  let files : Files :=
    { workingDirectory := Path.segments here.toString |>.filter (· ≠ ""), nodes := ∅ }
  let files ← load files here.toString
  match Arguments.parse args with
  | .error _ => return files
  | .ok invocation =>
    let files ← load files (invocation.config.getD defaultConfigFile)
    match invocation.settings env files with
    | .error _ => return files
    | .ok settings => (settings.database :: paths invocation.command).foldlM load files

def usage : String := "Usage: compref [OPTIONS] [COMMAND]\n"

def report : Outcome → IO UInt32
  | .printed text => do
    IO.print text
    return 0
  | .usage .help => do
    IO.print usage
    return 0
  | .usage .version => do
    IO.print CommandLine.versionText
    return 0
  | .usage _ => do
    IO.eprint usage
    return 2
  | .misconfigured e | .failed e => do
    IO.eprintln ("Error: " ++ e.message)
    return 1

end ComponentIdentity.Disk

open ComponentIdentity in
def main (args : List String) : IO UInt32 := do
  let env ← Disk.environment
  let secret ← IO.getRandomBytes 16
  let before ← Disk.gather args env
  let (outcome, after) := CommandLine.run args env (.random secret.data.toList 0) before
  Disk.save before after
  Disk.report outcome
