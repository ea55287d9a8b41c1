import DocOutline.Toml.DateTime
import DocOutline.Toml.Lexical
import DocOutline.Toml.Number
import DocOutline.Toml.Tables

/-! Reading TOML files.

Values nest, but no deeper than `maxDepth`. Each step within a value and each line
takes at least one character, so that reading for as many steps as there are
characters reads to the end. A file is malformed as a whole if any of its lines
is. -/
namespace DocOutline.Toml

/-! ### Values -/

/-- Characters of values without quotes or brackets. -/
def isBare (c : Char) : Bool :=
  c.isAlphanum || c = '_' || c = '-' || c = '+' || c = '.' || c = ':'

/-- The characters of a value without quotes or brackets. A date may be parted
from its time by a space. -/
def bareValue (s : List Char) : List Char × List Char :=
  let first := s.takeWhile isBare
  let rest := s.dropWhile isBare
  match rest with
  | ' ' :: c :: more =>
    if isDate first && c.isDigit then
      (first ++ ' ' :: (c :: more).takeWhile isBare, (c :: more).dropWhile isBare)
    else (first, rest)
  | _ => (first, rest)

/-- The value that characters without quotes or brackets spell. -/
def ofBare? (s : List Char) : Option Value :=
  if s = "true".toList then some (.boolean true)
  else if s = "false".toList then some (.boolean false)
  else if isDateTime s then some (.dateTime (String.ofList s))
  else
    match integer? s with
    | some n => some (.integer n)
    | none => (float? s).map .float

mutual

/-- A value that takes at most `fuel` steps, where `levels` more arrays and inline
tables may be opened in one another. -/
def value? : Nat → Nat → Reader Value
  | 0, _, _ => none
  | fuel + 1, levels, s =>
    match s with
    | [] => none
    | c :: rest =>
      if c = '[' then
        match levels with
        | 0 => none
        | levels + 1 => (items? fuel levels rest).map fun p => (.array p.1, p.2)
      else if c = '\x7b' then
        match levels with
        | 0 => none
        | levels + 1 =>
          match skipSpaces rest with
          | '\x7d' :: rest => some (.inlineTable [], rest)
          | _ => do
            let (pairs, rest) ← pairs? fuel levels rest
            let _ ← Tables.ofPairs pairs
            pure (.inlineTable pairs, rest)
      else if c = '"' || c = '\'' then
        (string? s).map fun p => (.string (String.ofList p.1), p.2)
      else
        let (bare, rest) := bareValue s
        (ofBare? bare).map fun v => (v, rest)

/-- The values of an array up to its closing bracket. -/
def items? : Nat → Nat → Reader (List Value)
  | 0, _, _ => none
  | fuel + 1, levels, s => do
    match ← skipLines false s with
    | ']' :: rest => pure ([], rest)
    | s => do
      let (v, rest) ← value? fuel levels s
      match ← skipLines false rest with
      | ',' :: rest => do
        let (vs, rest) ← items? fuel levels rest
        pure (v :: vs, rest)
      | ']' :: rest => pure ([v], rest)
      | _ => none

/-- The keys and values of an inline table up to its closing brace. -/
def pairs? : Nat → Nat → Reader (List (List String × Value))
  | 0, _, _ => none
  | fuel + 1, levels, s => do
    let (key, rest) ← key? (skipSpaces s)
    match rest with
    | '=' :: rest => do
      let (v, rest) ← value? fuel levels (skipSpaces rest)
      match skipSpaces rest with
      | ',' :: rest => do
        let (pairs, rest) ← pairs? fuel levels rest
        pure ((key, v) :: pairs, rest)
      | '\x7d' :: rest => pure ([(key, v)], rest)
      | _ => none
    | _ => none

end

/-! ### Lines -/

/-- The key of a header, and what follows the bracket that closes it. -/
def headerKey? (s : List Char) : Option (List String × List Char) := do
  let (keys, rest) ← key? (skipSpaces s)
  match rest with
  | ']' :: rest => pure (keys, rest)
  | _ => none

/-- The definitions and the current table after a line that is not blank, and
what follows on that line. -/
def line? (t : Tables) (place : Place) (s : List Char) : Option (Tables × Place × List Char) :=
  match s with
  | '[' :: '[' :: rest => do
    let (keys, rest) ← headerKey? rest
    match rest with
    | ']' :: rest => do
      let (t, place) ← t.openItem keys
      pure (t, place, rest)
    | _ => none
  | '[' :: rest => do
    let (keys, rest) ← headerKey? rest
    let (t, place) ← t.openTable keys
    pure (t, place, rest)
  | _ => do
    let (keys, rest) ← key? s
    match rest with
    | '=' :: rest => do
      let rest := skipSpaces rest
      let (v, rest) ← value? (rest.length + 1) maxDepth rest
      let t ← t.assign place keys v
      pure (t, place, rest)
    | _ => none

/-- The definitions of at most `fuel` lines, on from those before them and the
table that they stand in. -/
def lines? : Nat → Tables → Place → List Char → Option Tables
  | 0, t, _, s => if s.isEmpty then some t else none
  | fuel + 1, t, place, s =>
    let s := skipSpaces s
    match endLine? s with
    | some rest => if s.isEmpty then some t else lines? fuel t place rest
    | none => do
      let (t, place, rest) ← line? t place s
      let rest ← endLine? rest
      lines? fuel t place rest

/-- The definitions of a file, which may start with a byte order mark. -/
def read? (text : String) : Option Tables :=
  let s := text.toList
  let s := if s.head? = some '\ufeff' then s.tail else s
  lines? (s.length + 1) [] [] s

end DocOutline.Toml
