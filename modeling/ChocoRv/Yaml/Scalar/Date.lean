import ChocoRv.Yaml.Scalar.Number

/-!
# Dates and times in YAML documents
-/

namespace ChocoRv.Yaml

/-- Where the clock stands that a time is read from. -/
inductive Zone where
  | utc
  /-- An offset of zero, which is that of this place. -/
  | here
  | elsewhere
deriving DecidableEq, Repr

structure Timestamp where
  year : Nat
  month : Nat
  day : Nat
  hour : Nat := 0
  minute : Nat := 0
  second : Nat := 0
  nanosecond : Nat := 0
  zone : Zone := .utc
deriving DecidableEq, Repr

namespace Timestamp

open Number (number?)

/-- A number of one or two digits in front and what follows it. -/
def field? (s : Bytes) : Option (Nat × Bytes) :=
  match s with
  | a :: rest =>
    if !Byte.isDigit a then none
    else match rest with
      | b :: after =>
        if Byte.isDigit b then (number? 10 [a, b]).map (·, after)
        else (number? 10 [a]).map (·, rest)
      | [] => (number? 10 [a]).map (·, rest)
  | [] => none

/-- What follows a byte. -/
def after? (b : UInt8) (s : Bytes) : Option Bytes :=
  match s with
  | c :: rest => if c == b then some rest else none
  | [] => none

def isLeap (year : Nat) : Bool := year % 4 == 0 && (year % 100 != 0 || year % 400 == 0)

def daysIn (year month : Nat) : Nat :=
  if month = 2 then (if isLeap year then 29 else 28)
  else if [4, 6, 9, 11].contains month then 30
  else 31

/-- A date and what follows it: a year of four digits, a month and a day. -/
def date? (s : Bytes) : Option (Timestamp × Bytes) := do
  let digits := s.takeWhile Byte.isDigit
  if digits.length ≠ 4 then none
  let (month, s) ← field? (← after? '-'.toUInt8 (s.drop 4))
  let (day, s) ← field? (← after? '-'.toUInt8 s)
  let year ← number? 10 digits
  if 1 ≤ month && month ≤ 12 && 1 ≤ day && day ≤ daysIn year month then
    some ({ year, month, day }, s)
  else none

/-- The digits of a fraction of a second, if there is one, and what follows it. -/
def fraction (s : Bytes) : Bytes × Bytes :=
  match s with
  | c :: d :: _ =>
    if (c == '.'.toUInt8 || c == ','.toUInt8) && Byte.isDigit d then
      (s.tail.takeWhile Byte.isDigit, s.tail.dropWhile Byte.isDigit)
    else ([], s)
  | _ => ([], s)

/-- The nanoseconds of a fraction; further digits do not count. -/
def nanoseconds (digits : Bytes) : Nat :=
  let nine := (digits ++ List.replicate 9 '0'.toUInt8).take 9
  (number? 10 nine).getD 0

/-- Adds a time of day; returns what follows it. -/
def time? (t : Timestamp) (s : Bytes) : Option (Timestamp × Bytes) := do
  let (hour, s) ← field? s
  let (minute, s) ← field? (← after? ':'.toUInt8 s)
  let (second, s) ← field? (← after? ':'.toUInt8 s)
  if hour < 24 && minute < 60 && second < 60 then
    let (digits, s) := fraction s
    some ({ t with hour, minute, second, nanosecond := nanoseconds digits }, s)
  else none

/-- The zone that a text names: `Z` or an offset in hours and minutes. -/
def zone? (s : Bytes) : Option Zone :=
  match s with
  | [z] => if z == 'Z'.toUInt8 then some .utc else none
  | [sign, a, b, colon, c, d] =>
    if (sign == '+'.toUInt8 || sign == '-'.toUInt8) && colon == ':'.toUInt8 &&
        [a, b, c, d].all Byte.isDigit && (number? 10 [a, b]).any (· ≤ 24) &&
        (number? 10 [c, d]).any (· ≤ 60) then
      some (if [a, b, c, d].all (· == '0'.toUInt8) then .here else .elsewhere)
    else none
  | _ => none

/-- A date alone, with a time and a zone, or with a time after spaces. -/
def ofText? (s : Bytes) : Option Timestamp := do
  let (t, rest) ← date? s
  match rest with
  | [] => some t
  | c :: rest =>
    if c == 'T'.toUInt8 || c == 't'.toUInt8 then
      let (t, rest) ← t.time? rest
      let zone ← zone? rest
      some { t with zone }
    else if c == ' '.toUInt8 then
      match ← t.time? (rest.dropWhile (· == ' '.toUInt8)) with
      | (t, []) => some t
      | _ => none
    else none

def months : List Bytes :=
  [txt "January", txt "February", txt "March", txt "April", txt "May", txt "June", txt "July",
   txt "August", txt "September", txt "October", txt "November", txt "December"]

def Zone.text : Zone → Bytes
  | .utc => txt "time.UTC"
  | .here => txt "time.Local"
  | .elsewhere => txt "time.Location(\"\")"

/-- A time as an expression that builds it. -/
def literal (t : Timestamp) : Bytes :=
  let fields := [t.day, t.hour, t.minute, t.second, t.nanosecond].map decimal
  txt "time.Date(" ++ Bytes.join (txt ", ") ([decimal t.year,
    txt "time." ++ months.getD (t.month - 1) []] ++ fields ++ [Zone.text t.zone]) ++ txt ")"

end Timestamp

end ChocoRv.Yaml
