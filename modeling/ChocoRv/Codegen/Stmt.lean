import ChocoRv.Codegen.Expr

/-!
# Code of statements

The code of a statement leaves the stack as it was. `k` is the number of `for` statements before a
statement in its body, in preorder: it selects the hidden words of the frame.
-/

namespace ChocoRv

open Asm Emit

namespace Codegen

/-- Stores `a0` into a target. -/
def store (c : Context) : Expr → Emit Unit
  | .name id => storeVariable c id.name
  | .member _ object id => do
    push .a0 "value to store"
    object.gen c
    beqz .a0 errorNone
    pop .t0
    let layout ← ofExcept (c.layoutOf object.type?)
    instrOf (.store .sw .t0 .a0 (← ofExcept (layout.attrOffset id.name))) "store attribute " id.name
  | .index _ seq i => do
    push .a0 "value to store"
    elementAddress (seq.gen c) (i.gen c)
    pop .t0
    sw .t0 .a0 elementsOffset "store list element"
  | _ => fail .badTarget

/-- Stores the word on top of the stack into each target. -/
def storeAll (c : Context) (value : Option Ty) : List Expr → Emit Unit
  | [] => pure ()
  | target :: rest => do
    lw .a0 .sp 0 "assigned value"
    box value target.type?
    store c target
    storeAll c value rest

/-- Evaluates the value once and stores it into every target, boxed where the target needs it. -/
def assign (c : Context) (targets : List Expr) (value : Expr) : Emit Unit := do
  value.gen c
  match targets with
  | [target] =>
    box value.type? target.type?
    store c target
  | _ =>
    push .a0 "keep assigned value"
    storeAll c value.type? targets
    popDiscard 1

def conditional (test yes : Emit Unit) (no? : Option (Emit Unit)) : Emit Unit := do
  test
  let done ← fresh "if_end"
  match no? with
  | none =>
    beqz .a0 done
    yes
    label done
  | some no =>
    let otherwise ← fresh "if_else"
    beqz .a0 otherwise
    yes
    j done
    label otherwise
    no
    label done

def whileLoop (test body : Emit Unit) : Emit Unit := do
  let again ← fresh "while_check"
  let exit ← fresh "while_exit"
  label again
  test
  beqz .a0 exit
  body
  j again
  label exit

/-- The next element of the sequence in `t0` at the index in `t1`. -/
def nextElement (iterable : Option Ty) : Emit Unit :=
  if iterable = some .str then do
    push .t0
    push .t1
    jal (txt "strindex")
    popDiscard 2
  else do
    slli .t1 .t1 2
    add .t1 .t1 .t0
    lw .a0 .t1 elementsOffset "element"

/-- The type of the elements of an iterable. -/
def elementOf (iterable : Option Ty) : Option Ty :=
  if iterable = some .str then some .str else iterable.bind Ty.elem?

/-- The sequence and the next index are kept in the frame, so that the body may assign to the
variable. -/
def forLoop (c : Context) (slots : Int × Int) (id : Ident) (iterableType : Option Ty)
    (iterable body : Emit Unit) : Emit Unit := do
  let (seq, index) := slots
  let again ← fresh "for_check"
  let exit ← fresh "for_exit"
  iterable
  beqz .a0 errorNone
  sw .a0 .fp seq "for sequence"
  sw .zero .fp index "for index"
  label again
  lw .t0 .fp seq
  lw .t1 .fp index
  lw .t2 .t0 valueOffset "length"
  branch .bge .t1 .t2 exit
  nextElement iterableType
  lw .t1 .fp index
  addi .t1 .t1 1
  sw .t1 .fp index
  box (elementOf iterableType) id.mark.type?
  storeVariable c id.name
  body
  j again
  label exit

end Codegen

open Codegen

mutual

def Stmt.gen (c : Codegen.Context) (k : Nat) : Stmt → Emit Unit
  | .expr _ e => e.gen c
  | .assign _ targets value => Codegen.assign c targets value
  | .ite _ test yes no =>
    conditional (test.gen c) (Stmt.genAll c k yes)
      (if no.isEmpty then none else some (Stmt.genAll c (k + Stmt.forCounts yes) no))
  | .loop _ test body => whileLoop (test.gen c) (Stmt.genAll c k body)
  | .each _ id iterable body => do
    let slots ← need (c.frame.forSlots? k) .noForSlots
    forLoop c slots id iterable.type? (iterable.gen c) (Stmt.genAll c (k + 1) body)
  | .ret _ none => do
    mv .a0 .zero "return None"
    j c.epilogue
  | .ret _ (some e) => do
    asType e (e.gen c) (some c.ret)
    j c.epilogue

def Stmt.genAll (c : Codegen.Context) (k : Nat) : List Stmt → Emit Unit
  | [] => pure ()
  | s :: ss => do
    s.gen c k
    Stmt.genAll c (k + s.forCount) ss

end

end ChocoRv
