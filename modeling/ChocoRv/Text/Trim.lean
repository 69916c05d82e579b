import ChocoRv.Text.Basic

/-!
# Trimming white space

White space is the property of Unicode, on characters encoded in UTF-8 as one, two or three bytes.
Bytes that encode no character are not white space.
-/

namespace ChocoRv

namespace Byte

/-- Tab, newline, vertical tab, form feed, carriage return and space. -/
def isWhite (a : UInt8) : Bool := (0x09 ≤ a && a ≤ 0x0D) || a == 0x20

/-- U+0085 and U+00A0. -/
def isWhite₂ (a b : UInt8) : Bool := a == 0xC2 && (b == 0x85 || b == 0xA0)

/-- U+1680, U+2000 to U+200A, U+2028, U+2029, U+202F, U+205F and U+3000. -/
def isWhite₃ (a b c : UInt8) : Bool :=
  (a == 0xE1 && b == 0x9A && c == 0x80) ||
  (a == 0xE2 && b == 0x80 &&
    ((0x80 ≤ c && c ≤ 0x8A) || c == 0xA8 || c == 0xA9 || c == 0xAF)) ||
  (a == 0xE2 && b == 0x81 && c == 0x9F) ||
  (a == 0xE3 && b == 0x80 && c == 0x80)

end Byte

namespace Bytes

/-- Drops leading groups of one, two or three bytes that satisfy the predicates. -/
def dropGroups (one : UInt8 → Bool) (two : UInt8 → UInt8 → Bool)
    (three : UInt8 → UInt8 → UInt8 → Bool) : Bytes → Bytes
  | [] => []
  | [a] => if one a then [] else [a]
  | [a, b] =>
    if one a then dropGroups one two three [b] else if two a b then [] else [a, b]
  | a :: b :: c :: rest =>
    if one a then dropGroups one two three (b :: c :: rest)
    else if two a b then dropGroups one two three (c :: rest)
    else if three a b c then dropGroups one two three rest
    else a :: b :: c :: rest

def trimStart (s : Bytes) : Bytes := dropGroups Byte.isWhite Byte.isWhite₂ Byte.isWhite₃ s

def trimEnd (s : Bytes) : Bytes :=
  (dropGroups Byte.isWhite (fun b a => Byte.isWhite₂ a b) (fun c b a => Byte.isWhite₃ a b c)
    s.reverse).reverse

/-- The text without white space at either end. -/
def trim (s : Bytes) : Bytes := s.trimStart.trimEnd

end Bytes

end ChocoRv
