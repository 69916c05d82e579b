import ChocoRv.Asm.Basic

/-!
# Constants

A pool hands out one label for each distinct constant. `False` and `True` are always there, in this
order and side by side, so that boxing a bool can index from `False`.
-/

namespace ChocoRv.Asm

/-- Integers and strings with their numbers, in order of first request. -/
structure Pool where
  ints : List (Int × Nat) := []
  strs : List (Bytes × Nat) := []
  next : Nat := 2
deriving DecidableEq, Repr

namespace Pool

def label (id : Nat) : Label := txt "const_" ++ decimal id

def boolLabel : Bool → Label
  | false => label 0
  | true => label 1

def int (pool : Pool) (value : Int) : Label × Pool :=
  match pool.ints.lookup value with
  | some id => (label id, pool)
  | none =>
    (label pool.next,
      { pool with ints := pool.ints ++ [(value, pool.next)], next := pool.next + 1 })

def str (pool : Pool) (value : Bytes) : Label × Pool :=
  match pool.strs.lookup value with
  | some id => (label id, pool)
  | none =>
    (label pool.next,
      { pool with strs := pool.strs ++ [(value, pool.next)], next := pool.next + 1 })

end Pool

/-- Words of a string object with `n` bytes and a NUL; the quotient goes toward zero. -/
def strSizeWords (n : Int) : Int := headerWords + 1 + (n + wordSize).tdiv wordSize

/-- The type tag and dispatch table of a class of constants. -/
structure Header where
  tag : Int
  dispatch : Label

structure Headers where
  int : Header
  bool : Header
  str : Header

/-- A boxed int or bool. -/
def scalarItems (h : Header) (label : Label) (value : Int) (comment : Bytes) : List Item :=
  [.align 2, .globalLabel label, .word h.tag (txt "type tag"),
   .word (headerWords + 1 : Nat) (txt "object size"),
   .wordAddress h.dispatch (txt "pointer to dispatch table"), .word value comment]

def strItems (h : Header) (label : Label) (value : Bytes) : List Item :=
  [.align 2, .globalLabel label, .word h.tag (txt "type tag for str"),
   .word (int32 (strSizeWords value.length)) (txt "object size"),
   .wordAddress h.dispatch (txt "pointer to dispatch table"),
   .word (int32 value.length) (txt "string length"), .string value (txt "string value")]

/-- The objects of all constants. -/
def Pool.items (pool : Pool) (h : Headers) : List Item :=
  scalarItems h.bool (boolLabel false) 0 (txt "False") ++
  scalarItems h.bool (boolLabel true) 1 (txt "True") ++
  pool.ints.flatMap (fun (value, id) =>
    scalarItems h.int (label id) value (txt "int " ++ signed value)) ++
  pool.strs.flatMap fun (value, id) => strItems h.str (label id) value

end ChocoRv.Asm
