import ChocoRv.Text.Basic

/-!
# Numbers of double precision

A finite number is a whole multiple of a power of two. `ofRatio` rounds a ratio to the nearest one,
a half to the even neighbour, and `shortest` gives the fewest decimal digits that read back as the
same number.
-/

namespace ChocoRv

inductive Double where
  | nan
  | infinite (negative : Bool)
  /-- The number `mantissa * 2 ^ exponent` with a sign. -/
  | finite (negative : Bool) (mantissa : Nat) (exponent : Int)
deriving DecidableEq, Repr

namespace Double

/-- Mantissas are below this power of two. -/
def precision : Nat := 53

def leastExponent : Int := -1074

def greatestExponent : Int := 971

/-- The ratio of a number to a power of a base. -/
def overPower (num den base : Nat) (e : Int) : Nat × Nat :=
  if 0 ≤ e then (num, den * Nat.pow base e.toNat) else (num * Nat.pow base (-e).toNat, den)

/-- The whole number nearest to a ratio, of two the even one. -/
def nearest (num den : Nat) : Nat :=
  let q := num / den
  let twice := 2 * (num % den)
  if twice < den || (twice == den && q % 2 == 0) then q else q + 1

/-- The exponent with which a ratio has a mantissa of full length, if that is not too small. -/
def exponentOf (num den : Nat) : Int :=
  let e : Int := num.log2 - den.log2 - precision
  let (a, b) := overPower num den 2 e
  max leastExponent (if Nat.pow 2 precision ≤ a / b then e + 1 else e)

/-- The number nearest to a ratio. -/
def ofRatio (negative : Bool) (num den : Nat) : Double :=
  let e := exponentOf num den
  let (a, b) := overPower num den 2 e
  let m := nearest a b
  if m = 0 then finite negative 0 leastExponent
  else
    let (m, e) := if m = Nat.pow 2 precision then (m / 2, e + 1) else (m, e)
    if greatestExponent < e then infinite negative else finite negative m e

/-- The number nearest to `digits * 10 ^ power`. -/
def ofDecimal (negative : Bool) (digits : Nat) (power : Int) : Double :=
  let (num, den) := overPower digits 1 10 (-power)
  ofRatio negative num den

def ofInt (n : Int) : Double := ofRatio (n < 0) n.natAbs 1

/-- Whether two numbers are equal: no number equals itself that is none, and zero has no sign. -/
def isEqual : Double → Double → Bool
  | nan, _ | _, nan => false
  | finite _ 0 _, finite _ 0 _ => true
  | a, b => a == b

/-- The order of numbers; what is no number comes before all. -/
def isAtMost : Double → Double → Bool
  | nan, _ => true
  | _, nan => false
  | infinite negative, b => negative || b == infinite false
  | a, infinite negative => !negative || a == infinite true
  | finite s m e, finite t n f =>
    let least := min e f
    let whole (negative : Bool) (m : Nat) (e : Int) : Int :=
      let n : Int := m * Nat.pow 2 (e - least).toNat
      if negative then -n else n
    whole s m e ≤ whole t n f

/-! ## Decimal digits -/

/-- The number of decimal digits before the point of a ratio; zeros after the point count
negative. -/
def places (num den : Nat) : Int :=
  let d : Int := (decimal num).length - (decimal den).length
  let (a, b) := overPower num den 10 d
  if b ≤ a then d + 1 else d

/-- The digits and the power of ten of the shortest decimal that reads back, with `n` more digits
at most than the ones tried before. -/
def shortestFrom (mantissa : Nat) (exponent : Int) (places : Int) : Nat → Nat → Nat × Int
  | 0, count => (0, places - count)
  | n + 1, count =>
    let power := places - count
    let (num, den) := overPower mantissa 1 2 (-exponent)
    let (a, b) := overPower num den 10 power
    let low := a / b
    let readsBack (digits : Nat) : Bool :=
      ofDecimal false digits power == finite false mantissa exponent
    let nearer := if 2 * (a % b) ≤ b then low else low + 1
    let other := if nearer = low then low + 1 else low
    if readsBack nearer then (nearer, power)
    else if readsBack other then (other, power)
    else shortestFrom mantissa exponent places n (count + 1)

/-- The fewest decimal digits that read back as a number, and the power of ten of the last. -/
def shortest (mantissa : Nat) (exponent : Int) : Nat × Int :=
  let (num, den) := overPower mantissa 1 2 (-exponent)
  shortestFrom mantissa exponent (places num den) 17 1

/-- Digits without zeros at their end. -/
def withoutZeros (digits : Bytes) : Bytes :=
  (digits.reverse.dropWhile (· == '0'.toUInt8)).reverse

/-- Digits with a point before the one at a place. -/
def positional (digits : Bytes) (point : Int) : Bytes :=
  let zeros (n : Int) : Bytes := List.replicate n.toNat '0'.toUInt8
  let whole := if 0 < point then digits.take point.toNat ++ zeros (point - digits.length)
    else txt "0"
  let fraction := zeros (-point) ++ digits.drop point.toNat
  if digits.length ≤ point then whole else whole ++ txt "." ++ fraction

/-- Digits with a point after the first and an exponent of two digits or more. -/
def scientific (digits : Bytes) (exponent : Int) : Bytes :=
  let e := decimal exponent.natAbs
  digits.take 1 ++ (if 1 < digits.length then txt "." ++ digits.drop 1 else []) ++ txt "e" ++
    (if exponent < 0 then txt "-" else txt "+") ++ (if e.length < 2 then txt "0" ++ e else e)

/-- The shortest text that reads back as a number. Exponents from -4 to 5 are written as places. -/
def text : Double → Bytes
  | nan => txt "NaN"
  | infinite negative => if negative then txt "-Inf" else txt "+Inf"
  | finite negative m e =>
    let sign := if negative then txt "-" else []
    if m = 0 then sign ++ txt "0"
    else
      let (n, power) := shortest m e
      let written := decimal n
      let exponent := written.length + power - 1
      let digits := withoutZeros written
      sign ++ if exponent < -4 || 6 ≤ exponent then scientific digits exponent
        else positional digits (exponent + 1)

end Double

end ChocoRv
