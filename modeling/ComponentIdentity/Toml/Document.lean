import Std.Data.ExtTreeMap
import ComponentIdentity.Toml.Token

/-! # TOML documents

A document is a list of statements, each of which opens a table or sets a key.
Its meaning is a tree, kept as a map from paths: a path is defined once, and a
table is extended only by the kind of statement that may still do so.
-/

namespace ComponentIdentity.Toml

abbrev Path := List String

inductive Value where
  | text (s : String)
  | bool (b : Bool)
  | emptyArray
  /-- A table in braces; its members are statements of their own. -/
  | table
  deriving DecidableEq, Repr

inductive Statement where
  | header (path : Path)
  | set (base key : Path) (value : Value)
  deriving DecidableEq, Repr

namespace Statement

/-- What may come next. Paths of keys that are being read are in reverse order. -/
inductive Expect where
  | line
  | headerKey (path : Path)
  | headerNext (path : Path)
  | key (path : Path)
  | keyNext (path : Path)
  /-- In braces, once a line has ended after the key. -/
  | equals (path : Path)
  | value (path : Path)
  | array (path : Path)
  | member
  | after
  deriving DecidableEq, Repr

/-- The statements so far, the last one first, the path of the last header, and the tables in braces
around the place, the innermost first. -/
structure State where
  done : List Statement := []
  base : Path := []
  outer : List Path := []
  expect : Expect := .line

def keyOf? : Token → Option String
  | .bare s => some (String.ofList s)
  | .text s => some (String.ofList s)
  | _ => none

namespace State

/-- The path of the table that is open here. -/
def table (s : State) : Path := s.outer.headD s.base

def set (s : State) (path : Path) (v : Value) : State :=
  { s with done := .set s.table path.reverse v :: s.done, expect := .after }

def openTable (s : State) (path : Path) : State :=
  { s with
    done := .set s.table path.reverse .table :: s.done
    outer := (s.table ++ path.reverse) :: s.outer
    expect := .member }

def stepKey (s : State) (path : Path) (next : Path → Expect) (t : Token) : Option State :=
  (keyOf? t).map fun k => { s with expect := next (k :: path) }

/-- A line may end here only inside braces, where it changes at most what may come next. -/
def stepNewline (s : State) (expect : Expect) : Option State :=
  if s.outer.isEmpty then none else some { s with expect }

def stepValue (s : State) (path : Path) : Token → Option State
  | .text v => some (s.set path (.text (String.ofList v)))
  | .block v => some (s.set path (.text (String.ofList v)))
  | .bare v =>
    if v = "true".toList then some (s.set path (.bool true))
    else if v = "false".toList then some (s.set path (.bool false))
    else none
  | .openBracket => some { s with expect := .array path }
  | .openBrace => some (s.openTable path)
  | _ => none

/-- After a value: a line ends, or the table in braces goes on or is closed. -/
def stepEnd (s : State) (t : Token) : Option State :=
  match s.outer, t with
  | [], .newline => some { s with expect := .line }
  | _ :: _, .newline => some s
  | _ :: _, .comma => some { s with expect := .member }
  | _ :: outer, .closeBrace => some { s with outer, expect := .after }
  | _, _ => none

def step (s : State) (t : Token) : Option State :=
  match s.expect, t with
  | .line, .newline => some s
  | .line, .openBracket => some { s with expect := .headerKey [] }
  | .line, t => s.stepKey [] .keyNext t
  | .headerKey path, t => s.stepKey path .headerNext t
  | .headerNext path, .dot => some { s with expect := .headerKey path }
  | .headerNext path, .closeBracket =>
    some { s with
      done := .header path.reverse :: s.done, base := path.reverse, expect := .after }
  | .headerNext _, _ => none
  | .key path, t => s.stepKey path .keyNext t
  | .keyNext path, .dot => some { s with expect := .key path }
  | .keyNext path, .equals => some { s with expect := .value path }
  | .keyNext path, .newline => s.stepNewline (.equals path)
  | .keyNext _, _ => none
  | .equals path, .equals => some { s with expect := .value path }
  | .equals path, .newline => s.stepNewline (.equals path)
  | .equals _, _ => none
  | .value path, .newline => s.stepNewline (.value path)
  | .value path, t => s.stepValue path t
  | .array _, .newline => some s
  | .array path, .closeBracket => some (s.set path .emptyArray)
  | .array _, _ => none
  | .member, .newline => some s
  | .member, .closeBrace => some { s with outer := s.outer.tail, expect := .after }
  | .member, t => s.stepKey [] .keyNext t
  | .after, t => s.stepEnd t

def result? (s : State) : Option (List Statement) :=
  match s.expect, s.outer with
  | .line, [] => some s.done.reverse
  | .after, [] => some s.done.reverse
  | _, _ => none

end State

def ofTokens? (tokens : List Token) : Option (List Statement) :=
  (tokens.foldlM State.step {}).bind State.result?

end Statement

/-- How a path came to be defined. -/
inductive Entry where
  | leaf (value : Value)
  /-- A table named by a header of its own. -/
  | headed
  /-- A table that so far is only on the way to one with a header. -/
  | implied
  /-- A table that dotted keys made. -/
  | dotted
  deriving DecidableEq, Repr

/-- The tree of a document, by path. -/
abbrev Tree := Std.ExtTreeMap Path Entry

namespace Tree

/-- The proper nonempty prefixes of `base ++ path` that are longer than `base`. -/
def waypoints (base path : Path) : List Path :=
  (List.range (path.length - 1)).map fun i => base ++ path.take (i + 1)

/-- A header may pass any table but one in braces. -/
def passHeader (tree : Tree) (path : Path) : Option Tree :=
  match tree[path]? with
  | none => some (tree.insert path .implied)
  | some (.leaf _) => none
  | some _ => some tree

/-- A dotted key may pass only tables that dotted keys made. -/
def passDotted (tree : Tree) (path : Path) : Option Tree :=
  match tree[path]? with
  | none => some (tree.insert path .dotted)
  | some .dotted => some tree
  | some _ => none

def header (tree : Tree) (path : Path) : Option Tree := do
  let tree ← (waypoints [] path).foldlM passHeader tree
  match tree[path]? with
  | none | some .implied => return tree.insert path .headed
  | some _ => none

def set (tree : Tree) (base key : Path) (v : Value) : Option Tree := do
  let tree ← (waypoints base key).foldlM passDotted tree
  match tree[base ++ key]? with
  | none => return tree.insert (base ++ key) (.leaf v)
  | some _ => none

def apply (tree : Tree) : Statement → Option Tree
  | .header path => tree.header path
  | .set base key v => tree.set base key v

def ofStatements? (statements : List Statement) : Option Tree := statements.foldlM apply ∅

def ofText? (s : String) : Option Tree := do
  ofStatements? (← Statement.ofTokens? (← Token.lex s))

end Tree

end ComponentIdentity.Toml
