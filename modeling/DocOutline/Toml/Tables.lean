import DocOutline.Toml.Value

/-! What the keys of a TOML file define.

Every place in a file, a path of keys and of positions in arrays of tables, is
defined at most once as a value. Tables may come in several forms: named by a
header, passed through on the way to one, or made by a dotted key. A header may
not name a table twice, nor one made by dotted keys. A dotted key may not reach
into a table that a header named; it may pass through the others and through the
last table of an array, but ends in a table that dotted keys made. Nothing reaches
into a value. -/
namespace DocOutline.Toml

/-- A step of a place. -/
inductive Segment where
  | key (name : String)
  /-- A table of an array of tables. -/
  | item (index : Nat)
  deriving DecidableEq, Repr

abbrev Place := List Segment

inductive TableForm where
  /-- On the way to a table that a header names. -/
  | passed
  /-- Named by a header. -/
  | named
  /-- Made by a dotted key. -/
  | dotted
  deriving DecidableEq, Repr

inductive Definition where
  | value (v : Value)
  | table (form : TableForm)
  /-- An array of so many tables. -/
  | tables (count : Nat)

/-- The definitions of a file, the latest first. -/
abbrev Tables := List (Place × Definition)

namespace Tables

/-- What stands at a place. -/
def definition? (t : Tables) (place : Place) : Option Definition :=
  (List.find? (fun d : Place × Definition => d.1 = place) t).map Prod.snd

def define (t : Tables) (place : Place) (d : Definition) : Tables := (place, d) :: t

/-- The value of a key at the top of the file. -/
def top? (t : Tables) (key : String) : Option Definition := t.definition? [.key key]

/-- The place that a header reaches from `place` over some keys. -/
def passHeader (t : Tables) (place : Place) : List String → Option (Tables × Place)
  | [] => some (t, place)
  | key :: keys =>
    let next := place ++ [.key key]
    match t.definition? next with
    | none => passHeader (t.define next (.table .passed)) next keys
    | some (.table _) => passHeader t next keys
    | some (.tables count) => passHeader t (next ++ [.item (count - 1)]) keys
    | some (.value _) => none

/-- The place that a dotted key reaches from `place` over all but its last part. -/
def passDotted (t : Tables) (place : Place) : List String → Option (Tables × Place)
  | [] => some (t, place)
  | key :: keys =>
    let next := place ++ [.key key]
    match t.definition? next with
    | none => passDotted (t.define next (.table .dotted)) next keys
    | some (.table .passed) => if keys.isEmpty then none else passDotted t next keys
    | some (.table .dotted) => passDotted t next keys
    | some (.tables count) =>
      if keys.isEmpty then none else passDotted t (next ++ [.item (count - 1)]) keys
    | some _ => none

/-- The definitions after a header names a table, and the place of the table. -/
def openTable (t : Tables) (keys : List String) : Option (Tables × Place) := do
  let last ← keys.getLast?
  let (t, place) ← t.passHeader [] keys.dropLast
  let place := place ++ [.key last]
  match t.definition? place with
  | none | some (.table .passed) => some (t.define place (.table .named), place)
  | some _ => none

/-- The definitions after a header adds to an array of tables, and the place of
the new table. -/
def openItem (t : Tables) (keys : List String) : Option (Tables × Place) := do
  let last ← keys.getLast?
  let (t, place) ← t.passHeader [] keys.dropLast
  let place := place ++ [.key last]
  match t.definition? place with
  | none => some (t.define place (.tables 1), place ++ [.item 0])
  | some (.tables count) => some (t.define place (.tables (count + 1)), place ++ [.item count])
  | some _ => none

/-- The definitions after a key in the table at `place` gets a value. -/
def assign (t : Tables) (place : Place) (keys : List String) (v : Value) : Option Tables := do
  let last ← keys.getLast?
  let (t, place) ← t.passDotted place keys.dropLast
  let place := place ++ [.key last]
  match t.definition? place with
  | none => some (t.define place (.value v))
  | some _ => none

/-- The definitions of an inline table, if its keys agree with one another. -/
def ofPairs (pairs : List (List String × Value)) : Option Tables :=
  pairs.foldlM (fun t p => t.assign [] p.1 p.2) []

end Tables

end DocOutline.Toml
