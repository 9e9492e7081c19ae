import ComponentIdentity.Text.Hidden

/-! # Quoted texts

A text between quotes in which every character can be seen: quotes, backslashes
and line breaks are escaped, hidden characters are written by their code.
-/

namespace ComponentIdentity.Text.Quoted

def shortLetters : List (Char × Char) :=
  [('\x00', '0'), ('\t', 't'), ('\n', 'n'), ('\r', 'r'), ('"', '"'), ('\\', '\\')]

def escapeChar (c : Char) : List Char :=
  match shortLetters.lookup c with
  | some letter => ['\\', letter]
  | none =>
    if isHidden c then ['\\', 'u', '\x7b'] ++ Nat.toDigits 16 c.toNat ++ ['\x7d'] else [c]

def encode (s : String) : String := "\"" ++ String.ofList (s.toList.flatMap escapeChar) ++ "\""

end ComponentIdentity.Text.Quoted
