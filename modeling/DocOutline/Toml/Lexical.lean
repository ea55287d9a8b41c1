import DocOutline.Text.Digit

/-! What stands between the tokens of a TOML file, its strings and its keys.

Every reader takes the rest of the file and gives what it read with what follows,
or nothing if the file is malformed there. Lines end in a line feed, with or
without a carriage return in front; within a string of several lines only the
line feed counts. -/
namespace DocOutline.Toml

/-- A reader of one piece of a file. -/
abbrev Reader (α : Type) := List Char → Option (α × List Char)

/-- The most parts of a key, and the most arrays and inline tables that stand in
one another. -/
def maxDepth : Nat := 79

/-- Spaces and tabs. -/
def isSpace (c : Char) : Bool := c = ' ' || c = '\t'

/-- Characters of comments and strings: all but control characters, tabs apart. -/
def isText (c : Char) : Bool := c = '\t' || (32 ≤ c.toNat && c.toNat ≠ 127)

def skipSpaces (s : List Char) : List Char := s.dropWhile isSpace

/-- What follows the end of a line, after spaces and a comment. The end of the
file ends a line too. -/
def endLine? (s : List Char) : Option (List Char) :=
  let s := skipSpaces s
  let s := if s.head? = some '#' then s.dropWhile isText else s
  match s with
  | [] => some []
  | '\n' :: rest => some rest
  | '\r' :: '\n' :: rest => some rest
  | _ => none

/-- What follows spaces, line ends and comments, where `inComment` says whether a
comment has begun. -/
def skipLines (inComment : Bool) : List Char → Option (List Char)
  | [] => some []
  | '\n' :: rest => skipLines false rest
  | '\r' :: '\n' :: rest => skipLines false rest
  | c :: rest =>
    if inComment then if isText c then skipLines true rest else none
    else if isSpace c then skipLines false rest
    else if c = '#' then skipLines true rest
    else some (c :: rest)

/-! ### Escapes -/

def shortEscape? (c : Char) : Option Char :=
  if c = 'b' then some '\x08'
  else if c = 't' then some '\t'
  else if c = 'n' then some '\n'
  else if c = 'f' then some '\x0c'
  else if c = 'r' then some '\r'
  else if c = '"' then some '"'
  else if c = '\\' then some '\\'
  else none

/-- The character with the code point that hexadecimal digits write. -/
def scalar? (digits : List Char) : Option Char :=
  let n := Text.ofDigits 16 digits
  if digits.all (Text.isDigit 16) ∧ n.isValidChar then some (Char.ofNat n) else none

/-- The number of hexadecimal digits after an escape letter. -/
def escapeWidth? (c : Char) : Option Nat :=
  if c = 'u' then some 4 else if c = 'U' then some 8 else none

/-- The character that an escape stands for, from what follows its backslash, and
how many characters the escape takes after the backslash. -/
def escape? : List Char → Option (Char × Nat)
  | [] => none
  | c :: rest =>
    match shortEscape? c with
    | some d => some (d, 1)
    | none => do
      let width ← escapeWidth? c
      if rest.length < width then none
      else
        let d ← scalar? (rest.take width)
        some (d, width + 1)

/-! ### Strings -/

/-- Whether the rest of a line is blank, so that a backslash before it joins the
line with the next text. -/
def endsLine (s : List Char) : Bool :=
  match skipSpaces s with
  | '\n' :: _ => true
  | '\r' :: '\n' :: _ => true
  | _ => false

/-- How a string ends, and whether it may run over lines and holds escapes. -/
structure StringForm where
  quote : Char
  multiline : Bool
  escapes : Bool

/-- The text up to the closing quotes, and what follows them. The first `skip`
characters were read as part of an escape; `joining` passes over blanks and line
ends after a backslash at the end of a line. -/
def readText (form : StringForm) (skip : Nat) (joining : Bool) : Reader (List Char)
  | [] => none
  | c :: rest =>
    if 0 < skip then readText form (skip - 1) joining rest
    else if joining && (isSpace c || c = '\n' || (c = '\r' && rest.head? = some '\n')) then
      readText form 0 true rest
    else if c = form.quote then
      if !form.multiline then some ([], rest)
      else
        match rest with
        | a :: b :: after =>
          if a = c ∧ b = c then
            let extra := (after.takeWhile (· = c)).take 2
            some (extra, after.drop extra.length)
          else (readText form 0 false rest).map fun p => (c :: p.1, p.2)
        | _ => none
    else if form.escapes && c = '\\' then
      if form.multiline && endsLine rest then readText form 0 true rest
      else
        match escape? rest with
        | none => none
        | some (d, width) => (readText form width false rest).map fun p => (d :: p.1, p.2)
    else if isText c || (form.multiline && c = '\n') then
      (readText form 0 false rest).map fun p => (c :: p.1, p.2)
    else if form.multiline && c = '\r' && rest.head? = some '\n' then readText form 0 false rest
    else none

/-- A string of several lines after its opening quotes; a line end right there
does not count. -/
def readMultiline (form : StringForm) (s : List Char) : Option (List Char × List Char) :=
  match s with
  | '\n' :: rest => readText form 0 false rest
  | '\r' :: '\n' :: rest => readText form 0 false rest
  | _ => readText form 0 false s

/-- A string within one line. -/
def lineString? : Reader (List Char)
  | '"' :: rest => readText ⟨'"', false, true⟩ 0 false rest
  | '\'' :: rest => readText ⟨'\'', false, false⟩ 0 false rest
  | _ => none

/-- A string in any of its four forms. -/
def string? : Reader (List Char)
  | '"' :: '"' :: '"' :: rest => readMultiline ⟨'"', true, true⟩ rest
  | '\'' :: '\'' :: '\'' :: rest => readMultiline ⟨'\'', true, false⟩ rest
  | s => lineString? s

/-! ### Keys -/

def isBareKey (c : Char) : Bool := c.isAlphanum || c = '_' || c = '-'

/-- One part of a key. -/
def keyPart? (s : List Char) : Option (String × List Char) :=
  match lineString? s with
  | some (text, rest) => some (String.ofList text, rest)
  | none =>
    let bare := s.takeWhile isBareKey
    if bare.isEmpty then none else some (String.ofList bare, s.dropWhile isBareKey)

/-- A key of at most `count` dotted parts. -/
def keyParts? : Nat → Reader (List String)
  | 0, _ => none
  | count + 1, s => do
    let (part, rest) ← keyPart? s
    match skipSpaces rest with
    | '.' :: more => do
      let (parts, rest) ← keyParts? count (skipSpaces more)
      pure (part :: parts, rest)
    | rest => pure ([part], rest)

/-- A dotted key and what follows it, spaces passed over. -/
def key? : Reader (List String) := keyParts? maxDepth

end DocOutline.Toml
