import ChocoRv.Yaml.Error
import ChocoRv.Yaml.Scalar.Date

/-!
# Scalars

A plain scalar without a tag has the type that its spelling shows. A tag names the type; it is
wrong if the spelling shows another one.
-/

namespace ChocoRv.Yaml

namespace Tag

def null : Bytes := txt "!!null"
def bool : Bytes := txt "!!bool"
def int : Bytes := txt "!!int"
def float : Bytes := txt "!!float"
def timestamp : Bytes := txt "!!timestamp"
def str : Bytes := txt "!!str"
def binary : Bytes := txt "!!binary"
def merge : Bytes := txt "!!merge"
def seq : Bytes := txt "!!seq"
def map : Bytes := txt "!!map"

/-- What the tags of the standard start with when they are written in full. -/
def stem : Bytes := txt "tag:yaml.org,2002:"

/-- The short form of a tag. -/
def short (tag : Bytes) : Bytes :=
  if stem.isPrefixOf tag then txt "!!" ++ tag.drop stem.length else tag

end Tag

namespace Scalar

/-- What a scalar stands for. -/
inductive Value where
  | null
  | bool (b : Bool)
  | number (n : Number)
  | time (t : Timestamp)
  | text (s : Bytes)
deriving DecidableEq, Repr

namespace Value

/-- The tag of the type of a value. -/
def tag : Value → Bytes
  | null => Tag.null
  | bool _ => Tag.bool
  | number (.int _) | number (.word _) => Tag.int
  | number (.float _) => Tag.float
  | time _ => Tag.timestamp
  | text _ => Tag.str

/-- Whether two values are the same key of a mapping. -/
def isSameKey : Value → Value → Bool
  | number (.float a), number (.float b) => a.isEqual b
  | a, b => a == b

end Value

/-! ## Spellings -/

def words : List (Value × List Bytes) :=
  let float (x : Double) : Value := .number (.float x)
  [(.bool true, [txt "true", txt "True", txt "TRUE"]),
   (.bool false, [txt "false", txt "False", txt "FALSE"]),
   (.null, [[], txt "~", txt "null", txt "Null", txt "NULL"]),
   (float .nan, [txt ".nan", txt ".NaN", txt ".NAN"]),
   (float (.infinite false), [txt ".inf", txt ".Inf", txt ".INF", txt "+.inf", txt "+.Inf",
     txt "+.INF"]),
   (float (.infinite true), [txt "-.inf", txt "-.Inf", txt "-.INF"])]

/-- The value that a spelling shows; dates only if they are asked for. -/
def spelled (dates : Bool) (s : Bytes) : Value :=
  let orText (n? : Option Number) : Value := (n?.map .number).getD (.text s)
  match words.find? (·.2.contains s), s with
  | some (v, _), _ => v
  | none, c :: _ =>
    if c == '.'.toUInt8 then orText (Number.ofPointed? s)
    else if Byte.isDigit c || c == '+'.toUInt8 || c == '-'.toUInt8 then
      match if dates then Timestamp.ofText? s else none with
      | some t => .time t
      | none => orText (Number.ofText? s)
    else .text s
  | none, [] => .text s

/-! ## Values -/

/-- The value of six bits in base 64. -/
def sextet? (b : UInt8) : Option UInt32 :=
  if 'A'.toUInt8 ≤ b && b ≤ 'Z'.toUInt8 then some (b - 'A'.toUInt8).toUInt32
  else if 'a'.toUInt8 ≤ b && b ≤ 'z'.toUInt8 then some (b - 'a'.toUInt8 + 26).toUInt32
  else if Byte.isDigit b then some (b - '0'.toUInt8 + 52).toUInt32
  else if b == '+'.toUInt8 then some 62
  else if b == '/'.toUInt8 then some 63
  else none

/-- The bytes of four sextets. -/
def triple (a b c d : UInt32) : Bytes :=
  let n := a <<< 18 ||| b <<< 12 ||| c <<< 6 ||| d
  [(n >>> 16).toUInt8, (n >>> 8).toUInt8, n.toUInt8]

/-- The bytes that a text in base 64 without line breaks stands for. -/
def base64? : Bytes → Option Bytes
  | [] => some []
  | [a, b, c, d] =>
    if d ≠ '='.toUInt8 then
      return triple (← sextet? a) (← sextet? b) (← sextet? c) (← sextet? d)
    else if c ≠ '='.toUInt8 then
      return (triple (← sextet? a) (← sextet? b) (← sextet? c) 0).take 2
    else return (triple (← sextet? a) (← sextet? b) 0 0).take 1
  | a :: b :: c :: d :: rest => do
    let head := triple (← sextet? a) (← sextet? b) (← sextet? c) (← sextet? d)
    return head ++ (← base64? rest)
  | _ => none

/-- The tags of types that the spelling has to show. -/
def spelledTags : List Bytes := [Tag.bool, Tag.int, Tag.float, Tag.null, Tag.timestamp]

/-- The error of a text that shows another type than its tag says. -/
def misspelled (tag shown s : Bytes) : Error :=
  .general (txt "cannot decode " ++ shown ++ txt " `" ++ s ++ txt "` as a " ++ tag)

/-- The value of a scalar with a tag. Tags that are not of the standard stand for texts. -/
def value (tag s : Bytes) : Except Error Value :=
  if tag == Tag.binary then
    match base64? (s.filter fun b => b != '\n'.toUInt8 && b != '\r'.toUInt8) with
    | some bytes => .ok (.text bytes)
    | none => .error (.general (txt "!!binary value contains invalid base64 data"))
  else if !spelledTags.contains tag then .ok (.text s)
  else
    match spelled (tag == Tag.timestamp) s with
    | .number (.int n) =>
      if tag == Tag.int then .ok (.number (.int n))
      else if tag == Tag.float then .ok (.number (.float (.ofInt n)))
      else .error (misspelled tag Tag.int s)
    | v => if v.tag == tag then .ok v else .error (misspelled tag v.tag s)

end Scalar

end ChocoRv.Yaml
