import DocOutline.Text.Digit

/-! Dates and times in TOML: a date, a time, or a date and a time with or without
an offset, all within the calendar. -/
namespace DocOutline.Toml
open Text (isDigit ofDigits)

/-- The number that two digits write. -/
def twoDigits? (a b : Char) : Option Nat :=
  if isDigit 10 a && isDigit 10 b then some (ofDigits 10 [a, b]) else none

def isLeapYear (year : Nat) : Bool := year % 4 = 0 && (year % 100 ≠ 0 || year % 400 = 0)

def daysInMonth (year month : Nat) : Nat :=
  if month = 2 then if isLeapYear year then 29 else 28
  else if month = 4 ∨ month = 6 ∨ month = 9 ∨ month = 11 then 30
  else 31

/-- What follows a valid date. -/
def afterDate? : List Char → Option (List Char)
  | y₁ :: y₂ :: y₃ :: y₄ :: '-' :: m₁ :: m₂ :: '-' :: d₁ :: d₂ :: rest => do
    let century ← twoDigits? y₁ y₂
    let years ← twoDigits? y₃ y₄
    let month ← twoDigits? m₁ m₂
    let day ← twoDigits? d₁ d₂
    if 1 ≤ month ∧ month ≤ 12 ∧ 1 ≤ day ∧ day ≤ daysInMonth (century * 100 + years) month then
      some rest
    else none
  | _ => none

/-- What follows the fraction of a second, if there is one. -/
def afterFraction? : List Char → Option (List Char)
  | '.' :: rest =>
    if (rest.takeWhile (isDigit 10)).isEmpty then none else some (rest.dropWhile (isDigit 10))
  | rest => some rest

/-- What follows a valid time; a minute may have a leap second. -/
def afterTime? : List Char → Option (List Char)
  | h₁ :: h₂ :: ':' :: m₁ :: m₂ :: ':' :: s₁ :: s₂ :: rest => do
    let hour ← twoDigits? h₁ h₂
    let minute ← twoDigits? m₁ m₂
    let second ← twoDigits? s₁ s₂
    if hour ≤ 23 ∧ minute ≤ 59 ∧ second ≤ 60 then afterFraction? rest else none
  | _ => none

/-- Whether `s` is an offset from universal time, or nothing. -/
def isOffset : List Char → Bool
  | [] => true
  | ['Z'] | ['z'] => true
  | [sign, h₁, h₂, ':', m₁, m₂] =>
    (sign = '+' || sign = '-') && (twoDigits? h₁ h₂).any (· ≤ 23) &&
      (twoDigits? m₁ m₂).any (· ≤ 59)
  | _ => false

/-- Whether `s` is a date. -/
def isDate (s : List Char) : Bool := afterDate? s = some []

/-- Whether `s` is a date, a time or both. -/
def isDateTime (s : List Char) : Bool :=
  match afterDate? s with
  | some [] => true
  | some (delimiter :: time) =>
    (delimiter = 'T' || delimiter = 't' || delimiter = ' ') &&
      (afterTime? time).any isOffset
  | none => afterTime? s = some []

end DocOutline.Toml
