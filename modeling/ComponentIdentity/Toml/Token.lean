/-! # TOML tokens

Keys, texts and punctuation. Blanks and comments are skipped, line ends are kept.
Numbers and dates are not read: no configuration holds one.
-/

namespace ComponentIdentity.Toml

inductive Token where
  | bare (name : List Char)
  | text (value : List Char)
  /-- A text over several lines, which cannot be a key. -/
  | block (value : List Char)
  | dot
  | equals
  | comma
  | openBracket
  | closeBracket
  | openBrace
  | closeBrace
  | newline
  deriving DecidableEq, Repr

namespace Token

def apostrophe : Char := Char.ofNat 39

/-- A tab, or a character that is no control character. -/
def isPlain (c : Char) : Bool := c == '\t' || (decide (0x20 ≤ c.toNat) && c.toNat != 0x7f)

def isBlank (c : Char) : Bool := c == ' ' || c == '\t'

def isBare (c : Char) : Bool := c.isAlphanum || c == '_' || c == '-'

def hexValue? (c : Char) : Option Nat :=
  let n := c.toNat
  if c.isDigit then some (n - 48)
  else if 65 ≤ n ∧ n ≤ 70 then some (n - 55)
  else if 97 ≤ n ∧ n ≤ 102 then some (n - 87)
  else none

/-- The character with the code that the first `n` digits spell. -/
def hexChar? (n : Nat) (cs : List Char) : Option (Char × List Char) := do
  let ds ← (cs.take n).mapM hexValue?
  let code := ds.foldl (fun code d => 16 * code + d) 0
  if ds.length = n ∧ code.isValidChar then return (Char.ofNat code, cs.drop n) else none

def shortEscapes : List (Char × Char) :=
  [('b', '\x08'), ('t', '\t'), ('n', '\n'), ('f', '\x0c'), ('r', '\r'), ('e', '\x1b'),
    ('"', '"'), ('\\', '\\')]

/-- What follows a backslash. -/
def escape? : List Char → Option (Char × List Char)
  | [] => none
  | c :: rest =>
    if c = 'x' then hexChar? 2 rest
    else if c = 'u' then hexChar? 4 rest
    else if c = 'U' then hexChar? 8 rest
    else (shortEscapes.lookup c).map (·, rest)

theorem hexChar?_length {n : Nat} {cs rest : List Char} {c : Char}
    (h : hexChar? n cs = some (c, rest)) : rest.length ≤ cs.length := by
  simp only [hexChar?, Option.bind_eq_bind, Option.bind_eq_some_iff] at h
  obtain ⟨ds, -, h⟩ := h
  split at h
  · obtain ⟨-, rfl⟩ := Prod.mk.inj (Option.some.inj h)
    simp
  · simp at h

theorem escape?_length {cs rest : List Char} {c : Char} (h : escape? cs = some (c, rest)) :
    rest.length < cs.length := by
  cases cs with
  | nil => simp [escape?] at h
  | cons d ds =>
    simp only [escape?] at h
    simp only [List.length_cons]
    split at h
    · have := hexChar?_length h; omega
    · split at h
      · have := hexChar?_length h; omega
      · split at h
        · have := hexChar?_length h; omega
        · obtain ⟨e, -, h⟩ := Option.map_eq_some_iff.1 h
          obtain ⟨-, rfl⟩ := Prod.mk.inj h
          omega

/-- Reads up to the closing quote, with escapes. -/
def quoted (seen : List Char) : List Char → Option (List Char × List Char)
  | [] => none
  | c :: rest =>
    if c = '"' then some (seen.reverse, rest)
    else if c = '\\' then
      match _h : escape? rest with
      | none => none
      | some (e, rest') => quoted (e :: seen) rest'
    else if isPlain c then quoted (c :: seen) rest
    else none
termination_by cs => cs.length
decreasing_by
  · have := escape?_length ‹_›; simp only [List.length_cons]; omega
  · simp

/-- Reads up to the closing apostrophe; nothing is escaped. -/
def literal (seen : List Char) : List Char → Option (List Char × List Char)
  | [] => none
  | c :: rest =>
    if c = apostrophe then some (seen.reverse, rest)
    else if isPlain c then literal (c :: seen) rest
    else none

/-- The end of a block: three marks. Up to two more before them belong to the text. -/
def closing? (mark : Char) (cs : List Char) : Option (List Char × List Char) :=
  let run := (cs.takeWhile (· == mark)).length
  if run < 3 then none
  else
    let extra := min (run - 3) 2
    some (List.replicate extra mark, cs.drop (extra + 3))

def lineEnd? : List Char → Option (List Char)
  | '\n' :: rest => some rest
  | '\r' :: '\n' :: rest => some rest
  | _ => none

/-- Drops blanks and line ends. -/
def skipLines : List Char → List Char
  | ' ' :: rest => skipLines rest
  | '\t' :: rest => skipLines rest
  | '\n' :: rest => skipLines rest
  | '\r' :: '\n' :: rest => skipLines rest
  | cs => cs

/-- A backslash at the end of a line drops everything up to the next visible character. -/
def joinLines? (cs : List Char) : Option (List Char) :=
  (lineEnd? (cs.dropWhile isBlank)).map skipLines

def isBlockChar (c : Char) (rest : List Char) : Bool :=
  isPlain c || c == '\n' || (c == '\r' && rest.head? == some '\n')

theorem skipLines_length (cs : List Char) : (skipLines cs).length ≤ cs.length := by
  fun_induction skipLines cs <;> simp_all <;> omega

theorem lineEnd?_length {cs rest : List Char} (h : lineEnd? cs = some rest) :
    rest.length < cs.length := by
  unfold lineEnd? at h
  split at h
  · cases h
    simp
  · cases h
    rw [List.length_cons, List.length_cons]
    omega
  · cases h

theorem joinLines?_length {cs rest : List Char} (h : joinLines? cs = some rest) :
    rest.length < cs.length := by
  obtain ⟨mid, hmid, rfl⟩ := Option.map_eq_some_iff.1 h
  have h₁ := lineEnd?_length hmid
  have h₂ := skipLines_length mid
  have h₃ := (List.dropWhile_sublist isBlank (l := cs)).length_le
  omega

/-- Reads a block in quotes, with escapes. -/
def quotedBlock (seen : List Char) (cs : List Char) : Option (List Char × List Char) :=
  match closing? '"' cs with
  | some (extra, rest) => some (seen.reverse ++ extra, rest)
  | none =>
    match cs with
    | [] => none
    | c :: rest =>
      if c = '\\' then
        match _hj : joinLines? rest with
        | some rest' => quotedBlock seen rest'
        | none =>
          match _he : escape? rest with
          | none => none
          | some (e, rest') => quotedBlock (e :: seen) rest'
      else if isBlockChar c rest then quotedBlock (c :: seen) rest
      else none
termination_by cs.length
decreasing_by
  · have := joinLines?_length ‹_›; simp only [List.length_cons]; omega
  · have := escape?_length ‹_›; simp only [List.length_cons]; omega
  · simp

/-- Reads a block in apostrophes; nothing is escaped. -/
def literalBlock (seen : List Char) (cs : List Char) : Option (List Char × List Char) :=
  match closing? apostrophe cs with
  | some (extra, rest) => some (seen.reverse ++ extra, rest)
  | none =>
    match cs with
    | [] => none
    | c :: rest => if isBlockChar c rest then literalBlock (c :: seen) rest else none

/-- A line end right after the opening marks is not part of a block. -/
def blockStart (cs : List Char) : List Char := (lineEnd? cs).getD cs

def punctuation : List (Char × Token) :=
  [('.', dot), ('=', equals), (',', comma), ('[', openBracket), (']', closeBracket),
    ('\x7b', openBrace), ('\x7d', closeBrace), ('\n', newline)]

/-- The token that begins with `c`; none for blanks and comments. -/
def lexOne (c : Char) (rest : List Char) : Option (Option Token × List Char) :=
  match punctuation.lookup c with
  | some t => some (some t, rest)
  | none =>
    if isBlank c then some (none, rest)
    else if c = '\r' ∧ rest.head? = some '\n' then some (none, rest)
    else if c = '#' then some (none, rest.dropWhile isPlain)
    else if c = '"' then
      if ['"', '"'].isPrefixOf rest then
        (quotedBlock [] (blockStart (rest.drop 2))).map fun (s, rest) => (some (block s), rest)
      else (quoted [] rest).map fun (s, rest) => (some (text s), rest)
    else if c = apostrophe then
      if [apostrophe, apostrophe].isPrefixOf rest then
        (literalBlock [] (blockStart (rest.drop 2))).map fun (s, rest) => (some (block s), rest)
      else (literal [] rest).map fun (s, rest) => (some (text s), rest)
    else if isBare c then
      some (some (bare (c :: rest.takeWhile isBare)), rest.dropWhile isBare)
    else none

theorem quoted_length {seen s cs rest : List Char} (h : quoted seen cs = some (s, rest)) :
    rest.length ≤ cs.length := by
  fun_induction quoted seen cs with
  | case1 => simp at h
  | case2 => simp_all
  | case3 => simp at h
  | case4 =>
    rename_i ih
    have := escape?_length ‹_›
    have := ih h
    simp only [List.length_cons]; omega
  | case5 => rename_i ih; have := ih h; simp only [List.length_cons]; omega
  | case6 => simp at h

theorem literal_length {seen s cs rest : List Char} (h : literal seen cs = some (s, rest)) :
    rest.length ≤ cs.length := by
  fun_induction literal seen cs with
  | case1 => cases h
  | case2 =>
    cases h
    simp
  | case3 _ _ _ _ _ ih => exact Nat.le_succ_of_le (ih h)
  | case4 => cases h

theorem closing?_length {mark : Char} {cs extra rest : List Char}
    (h : closing? mark cs = some (extra, rest)) : rest.length ≤ cs.length := by
  simp only [closing?] at h
  split at h
  · simp at h
  · obtain ⟨-, rfl⟩ := Prod.mk.inj (Option.some.inj h)
    simp

theorem quotedBlock_length {seen s cs rest : List Char}
    (h : quotedBlock seen cs = some (s, rest)) : rest.length ≤ cs.length := by
  fun_induction quotedBlock seen cs with
  | case1 seen cs extra r hc =>
    obtain ⟨-, rfl⟩ := Prod.mk.inj (Option.some.inj h)
    exact closing?_length hc
  | case2 => simp at h
  | case3 =>
    rename_i ih
    have := joinLines?_length ‹_›
    have := ih h
    simp only [List.length_cons]; omega
  | case4 => simp at h
  | case5 =>
    rename_i ih
    have := escape?_length ‹_›
    have := ih h
    simp only [List.length_cons]; omega
  | case6 => rename_i ih; have := ih h; simp only [List.length_cons]; omega
  | case7 => simp at h

theorem literalBlock_length {seen s cs rest : List Char}
    (h : literalBlock seen cs = some (s, rest)) : rest.length ≤ cs.length := by
  fun_induction literalBlock seen cs with
  | case1 seen cs extra r hc =>
    obtain ⟨-, rfl⟩ := Prod.mk.inj (Option.some.inj h)
    exact closing?_length hc
  | case2 => simp at h
  | case3 seen c r _ _ ih => have := ih h; simp only [List.length_cons]; omega
  | case4 => simp at h

theorem blockStart_length (cs : List Char) : (blockStart cs).length ≤ cs.length := by
  cases h : lineEnd? cs with
  | none => simp [blockStart, h]
  | some rest => have := lineEnd?_length h; simp [blockStart, h]; omega

theorem lexOne_length {c : Char} {cs rest : List Char} {t : Option Token}
    (h : lexOne c cs = some (t, rest)) : rest.length ≤ cs.length := by
  have hstart := blockStart_length (cs.drop 2)
  have hplain := (List.dropWhile_sublist isPlain (l := cs)).length_le
  have hbare := (List.dropWhile_sublist isBare (l := cs)).length_le
  simp only [List.length_drop] at hstart
  simp only [lexOne] at h
  repeat' split at h
  case h_2.isFalse.isFalse.isFalse.isTrue.isTrue =>
    obtain ⟨⟨s, r⟩, hs, h⟩ := Option.map_eq_some_iff.1 h
    obtain ⟨-, rfl⟩ := Prod.mk.inj h
    exact Nat.le_trans (quotedBlock_length hs) (Nat.le_trans hstart (Nat.sub_le _ _))
  case h_2.isFalse.isFalse.isFalse.isTrue.isFalse =>
    obtain ⟨⟨s, r⟩, hs, h⟩ := Option.map_eq_some_iff.1 h
    obtain ⟨-, rfl⟩ := Prod.mk.inj h
    exact quoted_length hs
  case h_2.isFalse.isFalse.isFalse.isFalse.isTrue.isTrue =>
    obtain ⟨⟨s, r⟩, hs, h⟩ := Option.map_eq_some_iff.1 h
    obtain ⟨-, rfl⟩ := Prod.mk.inj h
    exact Nat.le_trans (literalBlock_length hs) (Nat.le_trans hstart (Nat.sub_le _ _))
  case h_2.isFalse.isFalse.isFalse.isFalse.isTrue.isFalse =>
    obtain ⟨⟨s, r⟩, hs, h⟩ := Option.map_eq_some_iff.1 h
    obtain ⟨-, rfl⟩ := Prod.mk.inj h
    exact literal_length hs
  all_goals simp_all

/-- The tokens of the characters, after those in `seen`, which are in reverse order. -/
def lexFrom (seen : List Token) : List Char → Option (List Token)
  | [] => some seen.reverse
  | c :: rest =>
    match _h : lexOne c rest with
    | none => none
    | some (t, rest') => lexFrom (t.toList ++ seen) rest'
termination_by cs => cs.length
decreasing_by
  have := lexOne_length ‹_›
  simp only [List.length_cons]
  omega

/-- A byte order mark in front is skipped. -/
def lex (s : String) : Option (List Token) :=
  match s.toList with
  | '\ufeff' :: rest => lexFrom [] rest
  | cs => lexFrom [] cs

end Token

end ComponentIdentity.Toml
