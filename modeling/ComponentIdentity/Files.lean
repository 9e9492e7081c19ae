import Std.Data.ExtTreeMap
import Std.Data.ExtTreeSet
import ComponentIdentity.Bytes
import ComponentIdentity.Error
import ComponentIdentity.Files.Path
import ComponentIdentity.Index.Encoding

/-! # Files

A file system without links: each place holds a file, a database, a directory or
nothing. A database is what was made as one; a file with the same bytes is not. A
path leads to a place through directories only, from the root or from the
working directory.
-/

namespace ComponentIdentity

/-- The names from the root to a place. -/
abbrev Location := List String

namespace Location

def toPath (l : Location) : Path := "/" ++ "/".intercalate l

end Location

inductive Node where
  | file (bytes : Bytes)
  | database (tables : IdentityTables)
  | directory
  deriving DecidableEq

namespace Node

/-- What a reader finds; a directory cannot be read. -/
def bytes? : Node → Option Bytes
  | file bytes => some bytes
  | database tables => some tables.toBytes
  | directory => none

/-- What the bytes on a disk hold. -/
def ofBytes (bytes : Bytes) : Node :=
  match IdentityTables.ofBytes? bytes with
  | some tables => database tables
  | none => file bytes

end Node

/-- The places that hold something, and the databases that are open. The root needs no entry. -/
structure Files where
  workingDirectory : Location
  nodes : Std.ExtTreeMap Location Node
  inUse : Std.ExtTreeSet Location := ∅

namespace Files

def node? (files : Files) : Location → Option Node
  | [] => some .directory
  | l => files.nodes[l]?

def nodeAt (files : Files) (l : Location) : Except SystemFault Node :=
  match files.node? l with
  | some node => .ok node
  | none => .error .noEntry

def put (files : Files) (l : Location) (node : Node) : Files :=
  { files with nodes := files.nodes.insert l node }

/-- Whoever has the file open keeps it, and the place is free. -/
def erase (files : Files) (l : Location) : Files :=
  { files with nodes := files.nodes.erase l, inUse := files.inUse.erase l }

/-- The longest name of a file, and the length from which a path is too long, in bytes. -/
def maxNameBytes : Nat := 255

def maxPathBytes : Nat := 4096

def checkText (path : Path) : Except SystemFault Unit :=
  if path.toList.contains '\x00' then .error .zeroByte
  else if path = "" then .error .noEntry
  else .ok ()

def checkLength (path : Path) : Except SystemFault Unit :=
  if maxPathBytes ≤ path.utf8ByteSize then .error .nameTooLong else .ok ()

def checkPath (path : Path) : Except SystemFault Unit := do
  checkText path
  checkLength path

def checkDirectory (files : Files) (l : Location) : Except SystemFault Unit :=
  match files.node? l with
  | some .directory => .ok ()
  | some _ => .error .notDirectory
  | none => .error .noEntry

def checkName (name : String) : Except SystemFault Unit :=
  if maxNameBytes < name.utf8ByteSize then .error .nameTooLong else .ok ()

/-- One segment further: only a directory can be left, also for nothing or for a way up. -/
def enter (files : Files) (l : Location) (name : String) : Except SystemFault Location := do
  files.checkDirectory l
  if name = "" ∨ name = "." then return l
  else if name = ".." then return l.dropLast
  else
    checkName name
    match files.node? (l ++ [name]) with
    | some _ => return l ++ [name]
    | none => throw .noEntry

def origin (files : Files) (path : Path) : Location :=
  if path.isAbsolute then [] else files.workingDirectory

/-- The place that a path leads to; it holds something. -/
def resolve (files : Files) (path : Path) : Except SystemFault Location := do
  checkPath path
  path.segments.foldlM files.enter (files.origin path)

def lookup (files : Files) (path : Path) : Except SystemFault (Location × Node) := do
  let l ← files.resolve path
  return (l, ← files.nodeAt l)

/-- One segment further, where the place that is reached must itself have a path that is not too
long. -/
def enterPlace (files : Files) (l : Location) (name : String) : Except SystemFault Location := do
  if name ≠ "" ∧ name ≠ "." ∧ name ≠ ".." then checkLength (l ++ [name]).toPath
  files.enter l name

/-- Looks a path of any length up, one segment after the other. -/
def locate (files : Files) (path : Path) : Except SystemFault (Location × Node) := do
  checkText path
  let l ← path.segments.foldlM files.enterPlace (files.origin path)
  return (l, ← files.nodeAt l)

def isFile (files : Files) (path : Path) : Bool :=
  match files.lookup path with
  | .error _ | .ok (_, .directory) => false
  | .ok _ => true

def isPresent (files : Files) (path : Path) : Bool := (files.resolve path).isOk

def readAt (files : Files) (l : Location) : Except SystemFault Bytes :=
  match (files.node? l).map Node.bytes? with
  | some (some bytes) => .ok bytes
  | some none => .error .isDirectory
  | none => .error .noEntry

def read (files : Files) (path : Path) : Except SystemFault Bytes := do
  files.readAt (← files.resolve path)

def readText (files : Files) (path : Path) : Except SystemFault String := do
  match Bytes.toText? (← files.read path) with
  | some s => return s
  | none => throw .notText

/-- The place of a file that is to be written: it holds a file, or nothing inside a directory. A
path that ends in a slash, or in no name, can only mean a directory. -/
def target (files : Files) (path : Path) : Except SystemFault Location := do
  checkPath path
  let segments := path.segments
  let slashed := segments.getLast? = some ""
  let names := (segments.reverse.dropWhile (· = "")).reverse
  let name := names.getLastD ""
  let around ← names.dropLast.foldlM files.enter (files.origin path)
  files.checkDirectory around
  if slashed ∨ name = "" ∨ name = "." ∨ name = ".." then throw .isDirectory
  checkName name
  match files.node? (around ++ [name]) with
  | some .directory => throw .isDirectory
  | _ => return around ++ [name]

def write (files : Files) (path : Path) (bytes : Bytes) : Except SystemFault Files := do
  return files.put (← files.target path) (.file bytes)

def remove (files : Files) (path : Path) : Except SystemFault Files := do
  match ← files.lookup path with
  | (_, .directory) => throw .isDirectory
  | (l, _) => return files.erase l

/-- One directory further, made if there is nothing. -/
def enterOrMake (state : Files × Location) (name : String) : Except SystemFault (Files × Location) :=
  let (files, l) := state
  match files.enter l name with
  | .ok l => .ok (files, l)
  | .error .noEntry => .ok (files.put (l ++ [name]) .directory, l ++ [name])
  | .error fault => .error fault

/-- Makes a directory and those around it; the empty path asks for none. -/
def makeDirectories (files : Files) (path : Path) : Except SystemFault Files := do
  if path = "" then return files
  checkPath path
  let (files, l) ← path.segments.foldlM enterOrMake (files, files.origin path)
  match files.node? l with
  | none | some .directory => return files
  | some _ => throw .alreadyExists

/-- The size of a directory is one block. -/
def sizeOf (files : Files) (path : Path) : Except SystemFault Nat := do
  let (_, node) ← files.lookup path
  return (node.bytes?.map List.length).getD 4096

end Files

end ComponentIdentity
