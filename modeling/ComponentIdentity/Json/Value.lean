import ComponentIdentity.Json.Token

/-! # JSON values

Values over a type of texts: `Spelling` for what was read, `String` for what is
to be written. The reader keeps the open arrays and objects on a stack of its
own, so nesting has no limit.
-/

namespace ComponentIdentity

inductive Json (τ : Type) where
  | null
  | bool (b : Bool)
  | number (spelling : List Char)
  | text (t : τ)
  | array (items : List (Json τ))
  | object (members : List (τ × Json τ))
  deriving Inhabited

namespace Json

/-- An open container around the value that is read; its contents are in reverse order. -/
inductive Frame where
  | array (items : List (Json Spelling))
  | object (members : List (Spelling × Json Spelling)) (key : Spelling)

/-- What may come next. -/
inductive State where
  | value (stack : List Frame)
  | arrayStart (stack : List Frame)
  | objectStart (stack : List Frame)
  | key (members : List (Spelling × Json Spelling)) (stack : List Frame)
  | colon (members : List (Spelling × Json Spelling)) (key : Spelling) (stack : List Frame)
  | done (value : Json Spelling) (stack : List Frame)

namespace State

def stepValue (stack : List Frame) : Token → Option State
  | .null => some (.done .null stack)
  | .bool b => some (.done (.bool b) stack)
  | .number s => some (.done (.number s) stack)
  | .text s => some (.done (.text s) stack)
  | .openBracket => some (.arrayStart stack)
  | .openBrace => some (.objectStart stack)
  | _ => none

def stepKey (members : List (Spelling × Json Spelling)) (stack : List Frame) :
    Token → Option State
  | .text s => some (.colon members s stack)
  | _ => none

def stepDone (v : Json Spelling) : List Frame → Token → Option State
  | .array items :: stack, .comma => some (.value (.array (v :: items) :: stack))
  | .array items :: stack, .closeBracket => some (.done (.array (v :: items).reverse) stack)
  | .object members k :: stack, .comma => some (.key ((k, v) :: members) stack)
  | .object members k :: stack, .closeBrace =>
    some (.done (.object ((k, v) :: members).reverse) stack)
  | _, _ => none

def step : State → Token → Option State
  | value stack, t => stepValue stack t
  | arrayStart stack, .closeBracket => some (done (Json.array []) stack)
  | arrayStart stack, t => stepValue (.array [] :: stack) t
  | objectStart stack, .closeBrace => some (done (Json.object []) stack)
  | objectStart stack, t => stepKey [] stack t
  | key members stack, t => stepKey members stack t
  | colon members k stack, .colon => some (value (.object members k :: stack))
  | colon _ _ _, _ => none
  | done v stack, t => stepDone v stack t

def result? : State → Option (Json Spelling)
  | done v [] => some v
  | _ => none

end State

def ofTokens? (tokens : List Token) : Option (Json Spelling) :=
  (tokens.foldlM State.step (State.value [])).bind State.result?

def ofBytes? (bytes : Bytes) : Option (Json Spelling) := (Token.lex bytes).bind ofTokens?

def natural (n : Nat) : Json String := .number (Nat.toDigits 10 n)

/-- The value of a number spelled by digits alone. -/
def natural? : Json Spelling → Option Nat
  | .number s => if s.all Char.isDigit then some (Nat.ofDigitChars 10 s 0) else none
  | _ => none

def text? : Json Spelling → Option String
  | .text s => s.toText?
  | _ => none

/-- The values of a record with these fields: an object, which may have further members but no
field twice, or an array of the values in order, which may end early. -/
def fields? (names : List String) : Json Spelling → Option (List (Option (Json Spelling)))
  | .array items =>
    if items.length ≤ names.length then
      some (items.map some ++ List.replicate (names.length - items.length) none)
    else none
  | .object members => do
    let named ← members.mapM fun (s, v) => s.toText?.map (·, v)
    if names.any fun name => 1 < named.countP (·.1 == name) then none
    else return names.map fun name => named.lookup name
  | _ => none

end Json

end ComponentIdentity
