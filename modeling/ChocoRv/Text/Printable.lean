import ChocoRv.Text.Basic
import ChocoRv.Text.Graphic

/-!
# Printable quoted text

`printable` writes a byte string between double quotes so that only graphic characters and spaces
appear: others are written as escapes, and bytes that are no UTF-8 by their values.
-/

namespace ChocoRv

/-- The character that stands for bytes which encode none. -/
def CodePoint.replacement : Nat := 0xFFFD

namespace Bytes

def isContinuation (b : UInt8) : Bool := 0x80 ≤ b && b ≤ 0xBF

/-- The code point at the front of a text and the number of its bytes, if it is valid UTF-8. -/
def codePoint? : Bytes → Option (Nat × Nat)
  | [] => none
  | a :: rest =>
    if a < 0x80 then some (a.toNat, 1)
    else match rest with
      | [] => none
      | b :: rest =>
        if !isContinuation b then none
        else if 0xC2 ≤ a && a ≤ 0xDF then some ((a.toNat - 0xC0) * 64 + (b.toNat - 0x80), 2)
        else match rest with
          | [] => none
          | c :: rest =>
            if !isContinuation c then none
            else if 0xE0 ≤ a && a ≤ 0xEF then
              -- no overlong forms and no surrogates
              if (a == 0xE0 && b < 0xA0) || (a == 0xED && 0xA0 ≤ b) then none
              else some
                ((a.toNat - 0xE0) * 4096 + (b.toNat - 0x80) * 64 + (c.toNat - 0x80), 3)
            else match rest with
              | [] => none
              | d :: _ =>
                if !isContinuation d || a < 0xF0 || 0xF4 < a then none
                else if (a == 0xF0 && b < 0x90) || (a == 0xF4 && 0x90 ≤ b) then none
                else some
                  ((a.toNat - 0xF0) * 262144 + (b.toNat - 0x80) * 4096 + (c.toNat - 0x80) * 64 +
                    (d.toNat - 0x80), 4)

/-- At least `width` hexadecimal digits. -/
def hex (width n : Nat) : Bytes :=
  let digits := (Nat.toDigits 16 n).map Char.toUInt8
  List.replicate (width - digits.length) '0'.toUInt8 ++ digits

/-- The form of a code point inside quotes; `raw` are its bytes. -/
def printableForm (c : Nat) (raw : Bytes) : Bytes :=
  if c = '"'.toNat then txt "\\\""
  else if c = '\\'.toNat then txt "\\\\"
  else if c = 0x20 || CodePoint.isGraphic c then raw
  else if c = 0x07 then txt "\\a"
  else if c = 0x08 then txt "\\b"
  else if c = 0x0C then txt "\\f"
  else if c = 0x0A then txt "\\n"
  else if c = 0x0D then txt "\\r"
  else if c = 0x09 then txt "\\t"
  else if c = 0x0B then txt "\\v"
  else if c < 0x20 || c = 0x7F then txt "\\x" ++ hex 2 c
  else if c < 0x10000 then txt "\\u" ++ hex 4 c
  else txt "\\U" ++ hex 8 c

/-- The printable forms of all characters. -/
def printableBody (s : Bytes) : Bytes :=
  match s with
  | [] => []
  | a :: rest =>
    match codePoint? (a :: rest) with
    | none => txt "\\x" ++ hex 2 a.toNat ++ printableBody rest
    | some (c, n) =>
      printableForm c ((a :: rest).take n) ++ printableBody (rest.drop (n - 1))
termination_by s.length
decreasing_by all_goals grind

def printable (s : Bytes) : Bytes := '"'.toUInt8 :: printableBody s ++ ['"'.toUInt8]

end Bytes

end ChocoRv
