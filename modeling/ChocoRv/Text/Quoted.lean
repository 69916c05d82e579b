import ChocoRv.Text.Basic

/-!
# Quoted text

`quote` writes a byte string between double quotes with the escapes of a string literal.
-/

namespace ChocoRv.Bytes

/-- A quote, a backslash, a newline and a tab are escaped; every other byte stands for itself. -/
def escape (b : UInt8) : Bytes :=
  if b = '"'.toUInt8 then txt "\\\""
  else if b = '\\'.toUInt8 then txt "\\\\"
  else if b = '\n'.toUInt8 then txt "\\n"
  else if b = '\t'.toUInt8 then txt "\\t"
  else [b]

def quote (s : Bytes) : Bytes := '"'.toUInt8 :: s.flatMap escape ++ ['"'.toUInt8]

/-- The byte that an escape letter stands for. -/
def unescape? (b : UInt8) : Option UInt8 :=
  if b = '"'.toUInt8 then some b
  else if b = '\\'.toUInt8 then some b
  else if b = 'n'.toUInt8 then some '\n'.toUInt8
  else if b = 't'.toUInt8 then some '\t'.toUInt8
  else none

end ChocoRv.Bytes
