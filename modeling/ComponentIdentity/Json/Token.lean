import ComponentIdentity.Json.Text

/-! # JSON tokens

The lexemes of a JSON text. Blanks are skipped; a number is kept as spelled.
-/

namespace ComponentIdentity.Json

inductive Token where
  | openBrace
  | closeBrace
  | openBracket
  | closeBracket
  | colon
  | comma
  | null
  | bool (b : Bool)
  | number (spelling : List Char)
  | text (spelling : Spelling)
  deriving DecidableEq, Repr

namespace Number

def isDigit (b : UInt8) : Bool := decide (48 ≤ b.toNat ∧ b.toNat ≤ 57)

/-- One digit at least. -/
def digits? (bytes : Bytes) : Option (Bytes × Bytes) :=
  match bytes.takeWhile isDigit with
  | [] => none
  | ds => some (ds, bytes.dropWhile isDigit)

/-- A zero is followed by no other digit. -/
def integer? (bytes : Bytes) : Option (Bytes × Bytes) := do
  let (ds, rest) ← digits? bytes
  if ds.head? = some 48 ∧ ds.length ≠ 1 then none else return (ds, rest)

def sign (marks : Bytes) : Bytes → Bytes × Bytes
  | [] => ([], [])
  | b :: rest => if b ∈ marks then ([b], rest) else ([], b :: rest)

def fraction? : Bytes → Option (Bytes × Bytes)
  | [] => some ([], [])
  | b :: rest =>
    if b = 0x2e then (digits? rest).map fun (ds, rest) => (b :: ds, rest)
    else some ([], b :: rest)

def exponent? : Bytes → Option (Bytes × Bytes)
  | [] => some ([], [])
  | b :: rest =>
    if b = 0x65 ∨ b = 0x45 then do
      let (mark, rest) := sign [0x2b, 0x2d] rest
      let (ds, rest) ← digits? rest
      return (b :: mark ++ ds, rest)
    else some ([], b :: rest)

/-- The longest number that the bytes begin with; none if it breaks off. -/
def lex (bytes : Bytes) : Option (List Char × Bytes) := do
  let (minus, rest) := sign [0x2d] bytes
  let (whole, rest) ← integer? rest
  let (part, rest) ← fraction? rest
  let (power, rest) ← exponent? rest
  return ((minus ++ whole ++ part ++ power).map (Char.ofNat ·.toNat), rest)

theorem digits?_length {bytes ds rest : Bytes} (h : digits? bytes = some (ds, rest)) :
    rest.length < bytes.length := by
  have hsplit : bytes.takeWhile isDigit ++ bytes.dropWhile isDigit = bytes :=
    List.takeWhile_append_dropWhile
  have hlen := congrArg List.length hsplit
  simp only [digits?] at h
  split at h
  · simp at h
  next hne =>
    simp only [Option.some.injEq, Prod.mk.injEq] at h
    obtain ⟨-, rfl⟩ := h
    have : (bytes.takeWhile isDigit).length ≠ 0 := by simpa using hne
    simp only [List.length_append] at hlen
    omega

theorem integer?_length {bytes ds rest : Bytes} (h : integer? bytes = some (ds, rest)) :
    rest.length < bytes.length := by
  simp only [integer?, Option.bind_eq_bind, Option.bind_eq_some_iff] at h
  obtain ⟨⟨ds', rest'⟩, hd, h⟩ := h
  have := digits?_length hd
  grind

theorem sign_length (marks bytes : Bytes) : (sign marks bytes).2.length ≤ bytes.length := by
  cases bytes <;> grind [sign]

theorem fraction?_length {bytes ds rest : Bytes} (h : fraction? bytes = some (ds, rest)) :
    rest.length ≤ bytes.length := by
  cases bytes with
  | nil => simp_all [fraction?]
  | cons b bs =>
    simp only [fraction?] at h
    split at h
    · obtain ⟨⟨ds', rest'⟩, hd, h⟩ := Option.map_eq_some_iff.1 h
      have := digits?_length hd
      grind
    · grind

theorem exponent?_length {bytes ds rest : Bytes} (h : exponent? bytes = some (ds, rest)) :
    rest.length ≤ bytes.length := by
  cases bytes with
  | nil => simp_all [exponent?]
  | cons b bs =>
    simp only [exponent?] at h
    split at h
    · simp only [Option.bind_eq_bind, Option.bind_eq_some_iff] at h
      obtain ⟨⟨ds', rest'⟩, hd, h⟩ := h
      have := digits?_length hd
      have := sign_length [0x2b, 0x2d] bs
      grind
    · grind

theorem lex_length {bytes rest : Bytes} {s : List Char} (h : lex bytes = some (s, rest)) :
    rest.length < bytes.length := by
  simp only [lex, Option.bind_eq_bind, Option.bind_eq_some_iff] at h
  obtain ⟨⟨whole, r₁⟩, h₁, ⟨part, r₂⟩, h₂, ⟨power, r₃⟩, h₃, h⟩ := h
  have := sign_length [0x2d] bytes
  have := integer?_length h₁
  have := fraction?_length h₂
  have := exponent?_length h₃
  grind

end Number

namespace Token

def isBlank (b : UInt8) : Bool := b == 0x20 || b == 0x09 || b == 0x0a || b == 0x0d

def punctuation : List (UInt8 × Token) :=
  [(0x7b, openBrace), (0x7d, closeBrace), (0x5b, openBracket), (0x5d, closeBracket),
    (0x3a, colon), (0x2c, comma)]

def words : List (Bytes × Token) :=
  [([0x6e, 0x75, 0x6c, 0x6c], null), ([0x74, 0x72, 0x75, 0x65], bool true),
    ([0x66, 0x61, 0x6c, 0x73, 0x65], bool false)]

/-- The token that begins with a byte that is not blank. -/
def lexOne (b : UInt8) (rest : Bytes) : Option (Token × Bytes) :=
  match punctuation.lookup b with
  | some t => some (t, rest)
  | none =>
    if b = Spelling.quote then (Spelling.lex [] rest).map fun (s, rest) => (text s, rest)
    else
      match words.find? fun w => w.1.isPrefixOf (b :: rest) with
      | some w => some (w.2, rest.drop (w.1.length - 1))
      | none => (Number.lex (b :: rest)).map fun (s, rest) => (number s, rest)

theorem lexOne_length {b : UInt8} {bytes rest : Bytes} {t : Token}
    (h : lexOne b bytes = some (t, rest)) : rest.length < (b :: bytes).length := by
  simp only [lexOne] at h
  split at h
  · grind
  · split at h
    · obtain ⟨⟨s, r⟩, hs, h⟩ := Option.map_eq_some_iff.1 h
      have := Spelling.lex_length hs
      grind
    · split at h
      · grind
      · obtain ⟨⟨s, r⟩, hs, h⟩ := Option.map_eq_some_iff.1 h
        have := Number.lex_length hs
        grind

/-- The tokens of the bytes, after those in `seen`, which are in reverse order. -/
def lexFrom (seen : List Token) : Bytes → Option (List Token)
  | [] => some seen.reverse
  | b :: rest =>
    if isBlank b then lexFrom seen rest
    else
      match _h : lexOne b rest with
      | none => none
      | some (t, rest') => lexFrom (t :: seen) rest'
termination_by bytes => bytes.length
decreasing_by
  · simp
  · exact lexOne_length ‹_›

def lex (bytes : Bytes) : Option (List Token) := lexFrom [] bytes

end Token

end ComponentIdentity.Json
