import ChocoRv.Text.Printable
import ChocoRv.Yaml.Scalar

/-!
# Values of any type

What a node stands for where nothing is known of its type, and its text in messages, which is an
expression of that value. The entries of a mapping are written in the order of their keys.
-/

namespace ChocoRv.Yaml

namespace Scalar.Value

/-- Numbers without a sign are written in base sixteen. -/
def literal : Value → Bytes
  | null => txt "interface \x7b\x7d(nil)"
  | bool b => if b then txt "true" else txt "false"
  | number (.int n) => signed n
  | number (.word n) => txt "0x" ++ Bytes.hex 1 n
  | number (.float x) => x.text
  | time t => t.literal
  | text s => s.printable

/-- The place of the type of a value in the order of keys. -/
def rank : Value → Nat
  | null => 0
  | bool _ => 1
  | number (.float _) => 2
  | number (.int _) => 3
  | text _ => 4
  | time _ => 5
  | number (.word _) => 6

/-- The order of keys; times have none among themselves. -/
def isBefore (a b : Value) : Bool :=
  match a, b with
  | bool a, bool b => !a || b
  | number (.int a), number (.int b) => a ≤ b
  | number (.word a), number (.word b) => a ≤ b
  | number (.float a), number (.float b) => a.isAtMost b
  | text a, text b => Bytes.le a b
  | a, b => a.rank ≤ b.rank

end Scalar.Value

inductive Value where
  | scalar (v : Scalar.Value)
  | list (items : List Value)
  /-- A mapping; one that is `general` may have other keys than texts. -/
  | map (general : Bool) (entries : List (Scalar.Value × Value))

namespace Value

/-- The entries with a value for a key, which replaces an earlier one. -/
def set (k : Scalar.Value) (v : Value) (entries : List (Scalar.Value × Value)) :
    List (Scalar.Value × Value) :=
  entries.filter (!·.1.isSameKey k) ++ [(k, v)]

/-- The type of a collection. -/
def typeName : Value → Bytes
  | scalar _ => []
  | list _ => txt "[]interface \x7b\x7d"
  | map general _ =>
    txt "map[" ++ (if general then txt "interface \x7b\x7d" else txt "string") ++
      txt "]interface \x7b\x7d"

mutual

/-- A value as an expression. -/
def literal : Value → Bytes
  | scalar v => v.literal
  | list items =>
    typeName (.list []) ++ txt "\x7b" ++ Bytes.join (txt ", ") (literals items) ++ txt "\x7d"
  | map general entries =>
    let sorted := (pairs entries).mergeSort fun a b => a.1.isBefore b.1
    typeName (.map general []) ++ txt "\x7b" ++ Bytes.join (txt ", ") (sorted.map (·.2)) ++
      txt "\x7d"

def literals : List Value → List Bytes
  | [] => []
  | v :: rest => v.literal :: literals rest

/-- The keys of entries with the texts of the entries. -/
def pairs : List (Scalar.Value × Value) → List (Scalar.Value × Bytes)
  | [] => []
  | (k, v) :: rest => (k, k.literal ++ txt ":" ++ v.literal) :: pairs rest

end

end Value

end ChocoRv.Yaml
