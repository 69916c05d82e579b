/-!
# Byte text

Source text, names, labels and messages are all byte strings. Columns and lengths count bytes.
-/

namespace ChocoRv

abbrev Bytes := List UInt8

/-- The bytes of an ASCII literal. -/
def txt (s : String) : Bytes := s.toList.map Char.toUInt8

abbrev Name := Bytes

/-- Decimal digits, without leading zeros. -/
def decimal (n : Nat) : Bytes := (Nat.toDigits 10 n).map Char.toUInt8

/-- Decimal digits after a sign where the number is negative. -/
def signed : Int → Bytes
  | .ofNat n => decimal n
  | .negSucc n => '-'.toUInt8 :: decimal (n + 1)

namespace Bytes

/-- The number that a run of decimal digits denotes. -/
def value (digits : Bytes) : Nat :=
  digits.foldl (fun acc d => 10 * acc + (d.toNat - '0'.toNat)) 0

/-- The pieces with `sep` between them. -/
def join (sep : Bytes) (pieces : List Bytes) : Bytes := sep.intercalate pieces

/-- The pieces between the bytes equal to `sep`; there is always at least one. -/
def split (sep : UInt8) : Bytes → List Bytes
  | [] => [[]]
  | c :: cs =>
    if c = sep then [] :: split sep cs
    else match split sep cs with
      | [] => [[c]]
      | piece :: pieces => (c :: piece) :: pieces

/-- The pieces that end after each newline. A last piece without a newline is kept if it has
bytes. -/
def lines : Bytes → List Bytes
  | [] => []
  | c :: cs =>
    if c = '\n'.toUInt8 then [c] :: lines cs
    else match lines cs with
      | [] => [[c]]
      | line :: rest => (c :: line) :: rest

/-- The lines make up the text. -/
theorem flatten_lines (s : Bytes) : (lines s).flatten = s := by
  induction s with
  | nil => rfl
  | cons c cs ih =>
    rw [lines]
    split
    · simp [ih]
    · split <;> simp_all

/-- Alphabetical order by byte. -/
def le : Bytes → Bytes → Bool
  | [], _ => true
  | _ :: _, [] => false
  | a :: as, b :: bs => a < b || (a == b && le as bs)

def sort (names : List Bytes) : List Bytes := names.mergeSort le

/-- The bytes up to the first `sep` and those after it, if there is one. -/
def cut? (sep : UInt8) : Bytes → Option (Bytes × Bytes)
  | [] => none
  | c :: cs =>
    if c = sep then some ([], cs)
    else (cut? sep cs).map fun (before, after) => (c :: before, after)

/-- The UTF-8 encoding of the character whose code point is the byte. -/
def ofCodePoint (b : UInt8) : Bytes :=
  if b < 0x80 then [b] else [(0xC0 : UInt8) ||| (b >>> 6), (0x80 : UInt8) ||| (b &&& 0x3F)]

end Bytes

end ChocoRv
