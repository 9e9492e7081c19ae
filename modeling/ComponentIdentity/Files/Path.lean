/-! # Paths

A path is a text of segments between slashes. Empty segments and single dots
name nothing of their own, except a single dot at the very front.
-/

namespace ComponentIdentity

abbrev Path := String

namespace Path

def splitSlash (cs : List Char) : List (List Char) :=
  cs.foldr
    (fun c parts =>
      if c = '/' then [] :: parts
      else
        match parts with
        | [] => [[c]]
        | part :: rest => (c :: part) :: rest)
    [[]]

def joinSlash (parts : List (List Char)) : List Char := ['/'].intercalate parts

def segments (path : Path) : List String := (splitSlash path.toList).map String.ofList

def isAbsolute (path : Path) : Bool := path.toList.head? == some '/'

/-- What stands before the segments: the root, a single dot at the front, or nothing. -/
def front : List Char → List Char × List Char
  | '/' :: rest => (['/'], rest)
  | ['.'] => (['.'], [])
  | '.' :: '/' :: rest => (['.'], '/' :: rest)
  | cs => ([], cs)

def isVoid (part : List Char) : Bool := part == [] || part == ['.']

/-- The segments without those at the end that name nothing. -/
def dropVoid (parts : List (List Char)) : List (List Char) :=
  (parts.reverse.dropWhile isVoid).reverse

/-- The front and the segments up to the last one that names something. -/
def parts (path : Path) : List Char × List (List Char) :=
  let (front, body) := front path.toList
  (front, dropVoid (splitSlash body))

/-- The path of the directory around a path; none for the root and for the empty path. -/
def parent? (path : Path) : Option Path :=
  let (front, body) := path.parts
  match body.reverse with
  | _ :: rest => some (String.ofList (front ++ joinSlash (dropVoid rest.reverse)))
  | [] => if front = ['.'] then some "" else none

/-- The last name of a path, unless it is a way up. -/
def fileName? (path : Path) : Option String :=
  match path.parts.2.getLast? with
  | none => none
  | some part => if part = ['.', '.'] then none else some (String.ofList part)

end Path

end ComponentIdentity
