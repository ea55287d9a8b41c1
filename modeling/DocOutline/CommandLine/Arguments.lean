import DocOutline.Config
import DocOutline.RawText
import DocOutline.Text.Digit

/-! The arguments of the command line.

Arguments are read from left to right, and the first fault is the error. An
option's value stands after an equals sign, right after a short name, or in the
next argument; a next argument that looks like an option is no value. After a
double dash everything is a path. A path may be any bytes, and everything else must
be a text. -/
namespace DocOutline

structure Arguments where
  /-- The files and directories to outline. -/
  paths : List RawText := []
  /-- The wanted extensions; if there are none, those of the configuration. -/
  extensions : List String := []
  maxLevel? : Option UInt8 := none
  sort : Bool := false
  filter? : Option String := none
  json : Bool := false
  deriving DecidableEq, Repr, Inhabited

/-- What the command line asks for. -/
inductive Command where
  | outline (arguments : Arguments)
  | help
  deriving DecidableEq, Repr

/-- The options by name. -/
inductive Switch where
  | ext
  | maxLevel
  | sort
  | filter
  | json
  | help
  deriving DecidableEq, Repr

inductive UsageError where
  | unknownOption (text : String)
  | missingValue (switch : Switch)
  | unexpectedValue (switch : Switch)
  | repeated (switch : Switch)
  | invalidLevel (text : String)
  /-- An argument that is no path is no text either. -/
  | invalidText
  | emptyPath
  deriving DecidableEq, Repr

namespace Switch

def all : List Switch := [ext, maxLevel, sort, filter, json, help]

def longName : Switch → String
  | ext => "ext"
  | maxLevel => "max-level"
  | sort => "sort"
  | filter => "filter"
  | json => "json"
  | help => "help"

/-- Whether the option has a value. -/
def takesValue : Switch → Bool
  | ext | maxLevel | filter => true
  | sort | json | help => false

def ofLong? (name : List Char) : Option Switch := all.find? fun s => s.longName.toList = name

def ofShort? (c : Char) : Option Switch :=
  if c = 'e' then some ext else if c = 'h' then some help else none

end Switch

def UsageError.message : UsageError → String
  | unknownOption text => "error: unexpected argument '" ++ text ++ "' found"
  | missingValue s => "error: a value is required for '--" ++ s.longName ++ "' but none was supplied"
  | unexpectedValue s => "error: unexpected value for '--" ++ s.longName ++ "' found"
  | repeated s => "error: the argument '--" ++ s.longName ++ "' cannot be used multiple times"
  | invalidLevel text => "error: invalid value '" ++ text ++ "' for '--max-level': not in 1..=6"
  | invalidText => "error: invalid UTF-8 was detected in one or more arguments"
  | emptyPath => "error: a value is required for '[PATH]...' but none was supplied"

/-- An argument by its looks. -/
inductive Token where
  | path
  /-- The double dash after which everything is a path. -/
  | separator
  /-- An option, perhaps with a value in the same argument. -/
  | option (switch : Switch) (value? : Option String)
  | unknown
  /-- Neither a path nor a text. -/
  | invalid
  deriving DecidableEq, Repr

namespace Token

/-- A long option, from what follows its dashes. -/
def ofLong (s : List Char) : Token :=
  let name := s.takeWhile (· ≠ '=')
  let value? := ((s.dropWhile (· ≠ '=')).tail?).map String.ofList
  match Switch.ofLong? name with
  | some switch => option switch value?
  | none => unknown

/-- A short option, from what follows its dash. -/
def ofShort (c : Char) (rest : List Char) : Token :=
  match Switch.ofShort? c with
  | none => unknown
  | some switch =>
    if switch.takesValue then
      match rest with
      | [] => option switch none
      | '=' :: value => option switch (some (String.ofList value))
      | _ => option switch (some (String.ofList rest))
    else option switch none

def ofText (text : List Char) : Token :=
  match text with
  | ['-', '-'] => separator
  | '-' :: '-' :: long => ofLong long
  | '-' :: short :: rest => ofShort short rest
  | _ => path

/-- What starts with the short name of help asks for it, whatever follows. -/
def ofArgument (argument : RawText) : Token :=
  match argument.text? with
  | some text => ofText text.toList
  | none =>
    if Text.bytes ['-', 'h'] <+: argument.bytes then option .help none
    else if Text.bytes ['-'] <+: argument.bytes then invalid
    else path

end Token

namespace Arguments

/-- The level that an option's value writes: decimal digits, perhaps after a
sign, for a number from one to six. -/
def levelOf? (text : String) : Option UInt8 :=
  let digits : List Char :=
    match text.toList with
    | '+' :: rest => rest
    | s => s
  if digits.isEmpty || !digits.all (Text.isDigit 10) then none
  else
    let n := Text.ofDigits 10 digits
    if 1 ≤ n ∧ n ≤ 6 then some n.toUInt8 else none

def addPath (a : Arguments) (path : RawText) : Except UsageError Arguments :=
  if path.bytes.isEmpty then .error .emptyPath else .ok { a with paths := a.paths ++ [path] }

def addPaths (a : Arguments) : List RawText → Except UsageError Arguments
  | [] => .ok a
  | path :: rest => do
    let a ← a.addPath path
    addPaths a rest

/-- The arguments after an option with a value. -/
def set (a : Arguments) (switch : Switch) (value : String) : Except UsageError Arguments :=
  match switch with
  | .ext => .ok { a with extensions := a.extensions ++ [value] }
  | .maxLevel =>
    if a.maxLevel?.isSome then .error (.repeated .maxLevel)
    else
      match levelOf? value with
      | some level => .ok { a with maxLevel? := some level }
      | none => .error (.invalidLevel value)
  | .filter =>
    if a.filter?.isSome then .error (.repeated .filter)
    else .ok { a with filter? := some value }
  | _ => .error (.unexpectedValue switch)

/-- The arguments after an option without a value. -/
def enable (a : Arguments) (switch : Switch) : Except UsageError Arguments :=
  match switch with
  | .sort => if a.sort then .error (.repeated .sort) else .ok { a with sort := true }
  | .json => if a.json then .error (.repeated .json) else .ok { a with json := true }
  | _ => .error (.missingValue switch)

/-- The command that the arguments make, on from those before them. -/
def parseFrom (a : Arguments) : List RawText → Except UsageError Command
  | [] => .ok (.outline a)
  | argument :: rest =>
    match Token.ofArgument argument with
    | .separator => (a.addPaths rest).map .outline
    | .unknown => .error (.unknownOption argument.shown)
    | .invalid => .error .invalidText
    | .path => do
      let a ← a.addPath argument
      parseFrom a rest
    | .option switch (some value) => do
      let a ← a.set switch value
      parseFrom a rest
    | .option .help none => .ok .help
    | .option switch none =>
      if switch.takesValue then
        match rest with
        | [] => .error (.missingValue switch)
        | value :: rest =>
          if Token.ofArgument value = .path then
            match value.text? with
            | none => .error .invalidText
            | some text => do
              let a ← a.set switch text
              parseFrom a rest
          else .error (.missingValue switch)
      else do
        let a ← a.enable switch
        parseFrom a rest

def parse (arguments : List RawText) : Except UsageError Command := parseFrom {} arguments

/-- The preferences with what the arguments say in their place. -/
def override (a : Arguments) (c : Config) : Config where
  maxLevel := a.maxLevel?.getD c.maxLevel
  fileExtensions := if a.extensions.isEmpty then c.fileExtensions else a.extensions
  sort := c.sort || a.sort

end Arguments

end DocOutline
