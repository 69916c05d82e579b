import ChocoRv.Number.Double
import ChocoRv.Text.Class

/-!
# Numbers in YAML documents

Whole numbers are written in bases two, eight, ten and sixteen and fit a word of 64 bits; others
are decimal numbers, which are rounded to double precision.
-/

namespace ChocoRv.Yaml

inductive Number where
  | int (n : Int)
  /-- A number that needs all of 64 bits without a sign. -/
  | word (n : Nat)
  | float (x : Double)
deriving DecidableEq, Repr

namespace Number

/-- The value of a digit in bases up to sixteen. -/
def digit? (b : UInt8) : Option Nat :=
  if Byte.isDigit b then some (b - '0'.toUInt8).toNat
  else if 'a'.toUInt8 ≤ b && b ≤ 'f'.toUInt8 then some (b - 'a'.toUInt8 + 10).toNat
  else if 'A'.toUInt8 ≤ b && b ≤ 'F'.toUInt8 then some (b - 'A'.toUInt8 + 10).toNat
  else none

/-- The number that digits denote in a base. -/
def number? (base : Nat) (digits : Bytes) : Option Nat :=
  digits.foldlM (fun acc b => (digit? b).bind fun d =>
    if d < base then some (acc * base + d) else none) 0

/-- A base after a zero: the letter in either case, and the base. -/
def bases : List (UInt8 × UInt8 × Nat) :=
  [('b'.toUInt8, 'B'.toUInt8, 2), ('o'.toUInt8, 'O'.toUInt8, 8), ('x'.toUInt8, 'X'.toUInt8, 16)]

/-- A number without a sign. A zero in front starts a base, which is eight without a letter. -/
def natural? (s : Bytes) : Option Nat :=
  match s with
  | [] => none
  | zero :: rest =>
    if zero ≠ '0'.toUInt8 then number? 10 s
    else match rest with
      | letter :: digits =>
        match bases.find? fun (lower, upper, _) => letter == lower || letter == upper with
        | some (_, _, base) => if digits.isEmpty then none else number? base digits
        | none => number? 8 rest
      | [] => some 0

/-- A sign, if there is one, and what follows it. -/
def splitSign (s : Bytes) : Option UInt8 × Bytes :=
  match s with
  | c :: rest => if c == '-'.toUInt8 || c == '+'.toUInt8 then (some c, rest) else (none, s)
  | [] => (none, s)

/-- A number with a sign or none, if it fits a word of 64 bits. -/
def ofSigned? (sign? : Option UInt8) (n : Nat) : Option Number :=
  let negative := sign? == some '-'.toUInt8
  if n < Nat.pow 2 63 || (n == Nat.pow 2 63 && negative) then
    some (.int (if negative then -(n : Int) else n))
  else if n < Nat.pow 2 64 && sign?.isNone then some (.word n)
  else none

/-- A whole number in a base that its spelling shows. -/
def whole? (s : Bytes) : Option Number :=
  let (sign?, digits) := splitSign s
  (natural? digits).bind (ofSigned? sign?)

/-- A whole number with its sign after the letter of its base. -/
def innerSigned? (s : Bytes) : Option Number :=
  let (outer?, rest) := match s with
    | c :: rest => if c == '-'.toUInt8 then (some c, rest) else (none, s)
    | [] => (none, s)
  let (inner?, digits) := splitSign (rest.drop 2)
  let base? := if (txt "0b").isPrefixOf rest then some 2
    else if (txt "0o").isPrefixOf rest then some 8
    else none
  base?.bind fun base =>
    if digits.isEmpty || (outer?.isSome && inner?.isSome) then none
    else (number? base digits).bind (ofSigned? (outer?.or inner?))

/-- The parts of a decimal number: the digits before and after the point, and the exponent. -/
structure Decimal where
  whole : Bytes
  fraction : Bytes
  exponent : Int

/-- A sign and digits as an exponent. -/
def exponent? (s : Bytes) : Option Int :=
  let (sign?, digits) := splitSign s
  if digits.isEmpty then none
  else (number? 10 digits).map fun n => if sign? == some '-'.toUInt8 then -(n : Int) else n

/-- A decimal number without a sign. -/
def decimal? (s : Bytes) : Option Decimal :=
  let whole := s.takeWhile Byte.isDigit
  let rest := s.drop whole.length
  let pointed := rest.head? == some '.'.toUInt8
  let fraction := if pointed then rest.tail.takeWhile Byte.isDigit else []
  let rest := if pointed then rest.tail.drop fraction.length else rest
  if whole.isEmpty && fraction.isEmpty then none
  else match rest with
    | [] => some ⟨whole, fraction, 0⟩
    | c :: rest =>
      if c == 'e'.toUInt8 || c == 'E'.toUInt8 then
        (exponent? rest).map fun e => ⟨whole, fraction, e⟩
      else none

/-- The number of double precision that is nearest to a decimal one. -/
def Decimal.toDouble (negative : Bool) (d : Decimal) : Double :=
  let digits := (d.whole ++ d.fraction).dropWhile (· == '0'.toUInt8)
  let shift := d.exponent - d.fraction.length
  let places := digits.length + shift
  if digits.isEmpty || places < -400 then .ofDecimal negative 0 0
  else if 400 < places then .infinite negative
  else .ofDecimal negative ((number? 10 digits).getD 0) shift

/-- Whether each underscore stands between two digits. -/
def dividesDigits (s : Bytes) : Bool :=
  let mark := '_'.toUInt8
  s.head? != some mark && s.getLast? != some mark &&
    (s.zip s.tail).all fun (a, b) =>
      (a != mark || Byte.isDigit b) && (b != mark || Byte.isDigit a)

/-- A decimal number with a sign or none that is not too large. -/
def float? (s : Bytes) : Option Double :=
  let (sign?, digits) := splitSign s
  match (decimal? digits).map (Decimal.toDouble (sign? == some '-'.toUInt8)) with
  | some (.infinite _) => none
  | x? => x?

/-- A number that starts with a point. -/
def ofPointed? (s : Bytes) : Option Number :=
  if dividesDigits s then (float? (s.filter (· != '_'.toUInt8))).map .float else none

/-- A number, where underscores count for nothing. -/
def ofText? (s : Bytes) : Option Number :=
  let plain := s.filter (· != '_'.toUInt8)
  ((whole? plain).or ((float? plain).map .float)).or (innerSigned? plain)

end Number

end ChocoRv.Yaml
