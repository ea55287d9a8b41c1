/-! JSON values and their pretty text.

Arrays and objects are written with one item a line, indented by two spaces for
each level, and without a line break when they are empty. In strings the quote,
the backslash and the control characters are escaped, and everything else stands
for itself. -/
namespace DocOutline

inductive Json where
  | string (text : String)
  | number (n : Nat)
  | array (items : List Json)
  | object (fields : List (String × Json))
  deriving Repr

namespace Json

def hexDigit (n : Nat) : Char := Nat.digitChar (n % 16)

/-- A character as it stands in a string. -/
def escapeChar (c : Char) : List Char :=
  if c = '"' then ['\\', '"']
  else if c = '\\' then ['\\', '\\']
  else if c = '\x08' then ['\\', 'b']
  else if c = '\t' then ['\\', 't']
  else if c = '\n' then ['\\', 'n']
  else if c = '\x0c' then ['\\', 'f']
  else if c = '\r' then ['\\', 'r']
  else if c.toNat < 32 then ['\\', 'u', '0', '0', hexDigit (c.toNat / 16), hexDigit c.toNat]
  else [c]

/-- A string in quotes. -/
def quoted (s : String) : List Char := '"' :: (s.toList.flatMap escapeChar ++ ['"'])

/-- A new line, indented for `depth`. -/
def lineBreak (depth : Nat) : List Char := '\n' :: List.replicate (2 * depth) ' '

/-- What stands after an item: a comma, if more items follow. -/
def separator {α : Type} (rest : List α) : List Char := if rest.isEmpty then [] else [',']

/-- What stands before the closing bracket of an array or object at `depth`. -/
def closing {α : Type} (depth : Nat) (items : List α) : List Char :=
  if items.isEmpty then [] else lineBreak depth

mutual

/-- The text of a value at a nesting depth. -/
def prettyAt (depth : Nat) : Json → List Char
  | string text => quoted text
  | number n => Nat.toDigits 10 n
  | array items => '[' :: (prettyItems (depth + 1) items ++ closing depth items ++ [']'])
  | object fields =>
    '\x7b' :: (prettyFields (depth + 1) fields ++ closing depth fields ++ ['\x7d'])

def prettyItems (depth : Nat) : List Json → List Char
  | [] => []
  | item :: rest =>
    lineBreak depth ++ prettyAt depth item ++ separator rest ++ prettyItems depth rest

def prettyFields (depth : Nat) : List (String × Json) → List Char
  | [] => []
  | field :: rest =>
    lineBreak depth ++ prettyField depth field ++ separator rest ++ prettyFields depth rest

def prettyField (depth : Nat) : String × Json → List Char
  | (key, value) => quoted key ++ ':' :: ' ' :: prettyAt depth value

end

def pretty (j : Json) : String := String.ofList (j.prettyAt 0)

theorem toList_pretty (j : Json) : j.pretty.toList = j.prettyAt 0 := by
  simp [pretty]

end Json

end DocOutline
