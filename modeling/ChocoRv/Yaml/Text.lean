import ChocoRv.Text.Basic

/-!
# The characters of a document

A document is UTF-8, or UTF-16 if it starts with a byte order mark that says so. It is read in
blocks, and nothing of a block is known before it is read: a character that is not allowed spoils
its whole block, and an incomplete one at the end of the document only what comes after it.
-/

namespace ChocoRv.Yaml

/-- A problem in a document, with the characters before it in its block. -/
structure Fault where
  before : List Char := []
  problem : Bytes
deriving DecidableEq, Repr

/-- The blocks of a document up to its end or up to a fault. -/
structure Text where
  blocks : List (List Char) := []
  fault? : Option Fault := none
deriving DecidableEq, Repr

def utf8 (cs : List Char) : Bytes := cs.flatMap String.utf8EncodeChar

namespace Text

/-- All characters up to the end or up to the fault. -/
def chars (t : Text) : List Char :=
  t.blocks.flatten ++ (match t.fault? with
    | some f => f.before
    | none => [])

inductive Encoding where
  | utf8 | utf16le | utf16be
deriving DecidableEq, Repr

/-- What stands at the front of some bytes. -/
inductive Front where
  | char (c : Nat) (width : Nat)
  /-- The bytes end within a character. -/
  | cut (problem : String)
  | invalid (problem : String)

/-- Control characters and the code points that stand for no character are not allowed. -/
def isAllowed (c : Nat) : Bool :=
  c == 0x09 || c == 0x0A || c == 0x0D || (0x20 ≤ c && c ≤ 0x7E) || c == 0x85 ||
    (0xA0 ≤ c && c ≤ 0xD7FF) || (0xE000 ≤ c && c ≤ 0xFFFD) || (0x10000 ≤ c && c ≤ 0x10FFFF)

def allowed (c width : Nat) : Front :=
  if isAllowed c then .char c width else .invalid "control characters are not allowed"

/-- The number of bytes of a character by its first one. -/
def width? (b : UInt8) : Option Nat :=
  if b &&& 0x80 = 0 then some 1
  else if b &&& 0xE0 = 0xC0 then some 2
  else if b &&& 0xF0 = 0xE0 then some 3
  else if b &&& 0xF8 = 0xF0 then some 4
  else none

/-- The bits that the first of some bytes adds to a code point. -/
def leading (width : Nat) (b : UInt8) : Nat :=
  if width = 1 then b.toNat else (b &&& (0xFF >>> (width.toUInt8 + 1))).toNat

/-- The least code point that takes a number of bytes. -/
def least : Nat → Nat
  | 2 => 0x80
  | 3 => 0x800
  | 4 => 0x10000
  | _ => 0

def unit8 : Bytes → Front
  | [] => .cut "incomplete UTF-8 octet sequence"
  | b :: rest =>
    match width? b with
    | none => .invalid "invalid leading UTF-8 octet"
    | some width =>
      let trail := rest.take (width - 1)
      let c := trail.foldl (fun acc t => acc * 64 + (t &&& 0x3F).toNat) (leading width b)
      if trail.length + 1 < width then .cut "incomplete UTF-8 octet sequence"
      else if trail.any (· &&& 0xC0 != 0x80) then .invalid "invalid trailing UTF-8 octet"
      else if c < least width then .invalid "invalid length of a UTF-8 sequence"
      else if (0xD800 ≤ c && c ≤ 0xDFFF) || 0x10FFFF < c then .invalid "invalid Unicode character"
      else allowed c width

/-- Two bytes as a number. -/
def pair (bigEndian : Bool) (a b : UInt8) : Nat :=
  if bigEndian then a.toNat * 256 + b.toNat else b.toNat * 256 + a.toNat

def isHigh (u : Nat) : Bool := 0xD800 ≤ u && u ≤ 0xDBFF

def isLow (u : Nat) : Bool := 0xDC00 ≤ u && u ≤ 0xDFFF

def unit16 (bigEndian : Bool) : Bytes → Front
  | a :: b :: rest =>
    let u := pair bigEndian a b
    if isLow u then .invalid "unexpected low surrogate area"
    else if isHigh u then
      match rest with
      | c :: d :: _ =>
        let v := pair bigEndian c d
        if isLow v then allowed (0x10000 + (u - 0xD800) * 0x400 + (v - 0xDC00)) 4
        else .invalid "expected low surrogate area"
      | _ => .cut "incomplete UTF-16 surrogate pair"
    else allowed u 2
  | _ => .cut "incomplete UTF-16 character"

def unit : Encoding → Bytes → Front
  | .utf8 => unit8
  | .utf16le => unit16 false
  | .utf16be => unit16 true

/-- The characters of a block, and after them the bytes of an incomplete one at its end or a
problem. -/
def readBlock (e : Encoding) : Nat → Bytes → List Char × Except Bytes Bytes
  | 0, bytes => ([], .ok bytes)
  | n + 1, bytes =>
    if bytes.isEmpty then ([], .ok [])
    else match unit e bytes with
      | .char c width =>
        let (cs, after) := readBlock e n (bytes.drop width)
        (Char.ofNat c :: cs, after)
      | .cut _ => ([], .ok bytes)
      | .invalid problem => ([], .error (txt problem))

def blockSize : Nat := 512

/-- Reads at most `n` blocks; `left` are the bytes of an incomplete character before `bytes`. -/
def readBlocks (e : Encoding) : Nat → Bytes → Bytes → Text
  | 0, _, _ => {}
  | n + 1, left, bytes =>
    let block := left ++ bytes.take (blockSize - left.length)
    let rest := bytes.drop (blockSize - left.length)
    match readBlock e block.length block with
    | (before, .error problem) => { fault? := some { before, problem } }
    | (cs, .ok left) =>
      if rest.isEmpty then
        match left, unit e left with
        | _ :: _, .cut problem => { blocks := [cs], fault? := some { problem := txt problem } }
        | _, _ => { blocks := [cs] }
      else
        let after := readBlocks e n left rest
        { after with blocks := cs :: after.blocks }

/-- The text of a document; one without bytes is an empty line. -/
def ofBytes (source : Bytes) : Text :=
  let (e, mark) : Encoding × Nat := match source with
    | 0xFF :: 0xFE :: _ => (.utf16le, 2)
    | 0xFE :: 0xFF :: _ => (.utf16be, 2)
    | 0xEF :: 0xBB :: 0xBF :: _ => (.utf8, 3)
    | _ => (.utf8, 0)
  if source.isEmpty then { blocks := [['\n']] }
  else
    let first := (source.take blockSize).drop mark
    match readBlock e first.length first with
    | (before, .error problem) => { fault? := some { before, problem } }
    | (cs, .ok left) =>
      let after := readBlocks e source.length left (source.drop blockSize)
      { after with blocks := cs :: after.blocks }

end Text

end ChocoRv.Yaml
