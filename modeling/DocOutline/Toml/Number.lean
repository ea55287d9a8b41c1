import DocOutline.Text.Digit

/-! Numbers in TOML.

Digits may be grouped by single underscores between them. Integers are decimal
with a sign and no leading zero, or unsigned with a base, and lie in 64 bits with
sign. Floats have a fraction or an exponent, or are infinite or undefined by
name. A positive number too large for a double is refused, a negative one is
infinite. -/
namespace DocOutline.Toml
open Text (isDigit ofDigits)

/-- Digits, without the single underscores that stand between two of them. -/
def ungroup (accepts : Char → Bool) : List Char → Option (List Char)
  | [] => none
  | [d] => if accepts d then some [d] else none
  | d :: '_' :: rest => if accepts d then (ungroup accepts rest).map (d :: ·) else none
  | d :: rest => if accepts d then (ungroup accepts rest).map (d :: ·) else none

/-- A natural number in some base. -/
def natural? (base : Nat) (s : List Char) : Option Nat :=
  (ungroup (isDigit base) s).map (ofDigits base)

/-- Decimal digits without a leading zero. -/
def decimalDigits? (s : List Char) : Option (List Char) :=
  match ungroup (isDigit 10) s with
  | some ('0' :: _ :: _) => none
  | digits? => digits?

/-- The sign in front of a number, and what follows it. -/
def splitSign : List Char → Bool × List Char
  | '-' :: s => (true, s)
  | '+' :: s => (false, s)
  | s => (false, s)

def applySign (negative : Bool) (n : Nat) : Int := if negative then -(n : Int) else n

def integer? (s : List Char) : Option Int :=
  let n? : Option Int :=
    match s with
    | '0' :: 'x' :: digits => (natural? 16 digits).map Int.ofNat
    | '0' :: 'o' :: digits => (natural? 8 digits).map Int.ofNat
    | '0' :: 'b' :: digits => (natural? 2 digits).map Int.ofNat
    | _ =>
      let (negative, digits) := splitSign s
      (decimalDigits? digits).map fun ds => applySign negative (ofDigits 10 ds)
  n?.filter fun n => -9223372036854775808 ≤ n && n ≤ 9223372036854775807

/-- The double nearest to `mantissa * 10 ^ exponent`, infinite if that is out of range. -/
def scaled (mantissa : Nat) (exponent : Int) : Float :=
  let magnitude : Int := (Nat.toDigits 10 mantissa).length + exponent
  if mantissa = 0 ∨ magnitude < -400 then 0.0
  else if 400 < magnitude then 1.0 / 0.0
  else Float.ofScientific mantissa (exponent < 0) exponent.natAbs

/-- The exponent after its letter. -/
def exponent? (s : List Char) : Option Int :=
  let (negative, digits) := splitSign s
  (ungroup (isDigit 10) digits).map fun ds => applySign negative (ofDigits 10 ds)

/-- The digits after the point, if there is a point, and the exponent. -/
def fractionAndExponent? (s : List Char) : Option (List Char × Int) := do
  let isExponentMark (c : Char) : Bool := c = 'e' || c = 'E'
  let (fraction, rest) ←
    match s with
    | '.' :: r => do
      let digits ← ungroup (isDigit 10) (r.takeWhile fun c => !isExponentMark c)
      pure (digits, r.dropWhile fun c => !isExponentMark c)
    | _ => pure ([], s)
  match rest with
  | [] => if fraction.isEmpty then none else pure (fraction, 0)
  | mark :: digits =>
    if isExponentMark mark then
      let exponent ← exponent? digits
      pure (fraction, exponent)
    else none

/-- The size of a float written in digits. -/
def magnitude? (s : List Char) : Option Float := do
  let inWhole (c : Char) : Bool := c ≠ '.' && c ≠ 'e' && c ≠ 'E'
  let whole ← decimalDigits? (s.takeWhile inWhole)
  let (fraction, exponent) ← fractionAndExponent? (s.dropWhile inWhole)
  pure (scaled (ofDigits 10 (whole ++ fraction)) (exponent - fraction.length))

def float? (s : List Char) : Option Float :=
  let (negative, rest) := splitSign s
  let size? : Option Float :=
    if rest = "inf".toList then some (1.0 / 0.0)
    else if rest = "nan".toList then some (0.0 / 0.0)
    else (magnitude? rest).filter fun x => negative || x.isFinite
  size?.map fun x => if negative then -x else x

end DocOutline.Toml
