import ComponentIdentity.Json.Value

/-! # Pretty JSON

Two blanks a level, one item a line, a blank after a colon. In a text, the
quote, the backslash and the control characters are escaped and nothing else.
-/

namespace ComponentIdentity.Json

def escapeUnit (c : Char) : List Char :=
  ['\\', 'u', '0', '0'] ++ Bytes.hexByte c.toNat.toUInt8

def shortLetters : List (Char × Char) :=
  [('"', '"'), ('\\', '\\'), ('\x08', 'b'), ('\x0c', 'f'), ('\n', 'n'), ('\r', 'r'), ('\t', 't')]

def escapeChar (c : Char) : List Char :=
  match shortLetters.lookup c with
  | some letter => ['\\', letter]
  | none => if c.toNat < 0x20 then escapeUnit c else [c]

def quoted (s : String) : String := "\"" ++ String.ofList (s.toList.flatMap escapeChar) ++ "\""

def indent (level : Nat) : String := String.ofList (List.replicate (2 * level) ' ')

/-- The items of a container that is closed at `level`, each on a line of its own. -/
def block (opening closing : String) (level : Nat) (items : List String) : String :=
  if items.isEmpty then opening ++ closing
  else
    opening ++ "\n" ++ ",\n".intercalate (items.map (indent (level + 1) ++ ·)) ++ "\n" ++
      indent level ++ closing

mutual

def pretty (level : Nat) : Json String → String
  | .null => "null"
  | .bool b => if b then "true" else "false"
  | .number s => String.ofList s
  | .text t => quoted t
  | .array items => block "[" "]" level (prettyItems (level + 1) items)
  | .object members => block "\x7b" "\x7d" level (prettyMembers (level + 1) members)

def prettyItems (level : Nat) : List (Json String) → List String
  | [] => []
  | v :: rest => pretty level v :: prettyItems level rest

def prettyMembers (level : Nat) : List (String × Json String) → List String
  | [] => []
  | (k, v) :: rest => (quoted k ++ ": " ++ pretty level v) :: prettyMembers level rest

end

end ComponentIdentity.Json
