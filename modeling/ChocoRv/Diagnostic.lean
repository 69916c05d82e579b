import ChocoRv.Token.Basic
import ChocoRv.Ty.Basic

/-!
# Diagnostics

A diagnostic is a problem at a place. Analysis goes on after each one: a `Reporting` computation
has a value and the diagnostics met on the way. They are shown in source order, and those at one
place in the order in which they were reported.
-/

namespace ChocoRv

namespace Message

inductive Arg where
  | text (b : Bytes)
  | number (n : Int)
deriving DecidableEq, Repr

namespace Arg

def render : Arg → Bytes
  | text b => b
  | number n => signed n

/-- The value with its type, for an argument that does not fit. -/
def described : Arg → Bytes
  | text b => txt "string=" ++ b
  | number n => txt "int=" ++ signed n

def fits (verb : UInt8) : Arg → Bool
  | text _ => verb == 's'.toUInt8
  | number _ => verb == 'd'.toUInt8

end Arg

/-- A template with its arguments in place: `%s` takes a text, `%d` a number and `%%` is a percent
sign. What does not fit is shown and not lost. -/
def fill : Bytes → List Arg → Bytes
  | [], [] => []
  | [], args => txt "%!(EXTRA " ++ Bytes.join (txt ", ") (args.map Arg.described) ++ txt ")"
  | [c], args => (if c = '%'.toUInt8 then txt "%!(NOVERB)" else [c]) ++ fill [] args
  | c :: d :: rest, args =>
    if c ≠ '%'.toUInt8 then c :: fill (d :: rest) args
    else if d = '%'.toUInt8 then d :: fill rest args
    else match args with
      | [] => txt "%!" ++ [d] ++ txt "(MISSING)" ++ fill rest []
      | arg :: args =>
        (if arg.fits d then arg.render
          else txt "%!" ++ [d] ++ txt "(" ++ arg.described ++ txt ")") ++ fill rest args

end Message

structure Message where
  template : Bytes
  args : List Message.Arg
deriving DecidableEq, Repr

def Message.text (m : Message) : Bytes := fill m.template m.args

/-- What is wrong with a program. -/
inductive Problem where
  | duplicate (name : Name)
  | noClass (name : Name)
  | shadowsClass (name : Name)
  | superUndefined (name : Name)
  | superNotClass (name : Name)
  | superSpecial (name : Name)
  | redefinesAttribute (name : Name)
  | firstParameter (name : Name)
  | overrideSignature (name : Name)
  | missingReturn (name : Name)
  | notGlobal (name : Name)
  | notNonlocal (name : Name)
  | undeclaredTarget (name : Name)
  | mismatch (expected got : Ty)
  | argumentMismatch (expected got : Ty) (index : Nat)
  | returnsNothing (expected : Ty)
  | badCondition (got : Ty)
  | noneListToMany
  | strIsNoList
  | notIterable (got : Ty)
  | topLevelReturn
  | notVariable (name : Name)
  | unaryOperand (op : Bytes) (operand : Ty)
  | binaryOperands (op : Bytes) (left right : Ty)
  | notIndexable (got : Ty)
  | badIndex (got : Ty)
  | notObject (got : Ty)
  | noAttribute (name : Name) (cls : Name)
  | argumentCount (expected got : Nat)
  | specialInstance (name : Name)
  | notCallable (name : Name)
  | noMethod (name : Name) (receiver : Ty)
deriving DecidableEq, Repr

namespace Problem

def message : Problem → Message
  | duplicate n => ⟨txt "Duplicate declaration of identifier in same scope: %s", [.text n]⟩
  | noClass n => ⟨txt "Invalid type annotation; there is no class named: %s", [.text n]⟩
  | shadowsClass n => ⟨txt "Cannot shadow class name: %s", [.text n]⟩
  | superUndefined n => ⟨txt "Super-class not defined: %s", [.text n]⟩
  | superNotClass n => ⟨txt "Super-class must be a class: %s", [.text n]⟩
  | superSpecial n => ⟨txt "Cannot extend special class: %s", [.text n]⟩
  | redefinesAttribute n => ⟨txt "Cannot re-define attribute: %s", [.text n]⟩
  | firstParameter n =>
    ⟨txt "First parameter of the following method must be of the enclosing class: %s", [.text n]⟩
  | overrideSignature n =>
    ⟨txt "Method overridden with different type signature: %s", [.text n]⟩
  | missingReturn n =>
    ⟨txt "All paths in this function/method must have a return statement: %s", [.text n]⟩
  | notGlobal n => ⟨txt "Not a global variable: %s", [.text n]⟩
  | notNonlocal n => ⟨txt "Not a nonlocal variable: %s", [.text n]⟩
  | undeclaredTarget n =>
    ⟨txt "Cannot assign to variable that is not explicitly declared in this scope: %s", [.text n]⟩
  | mismatch expected got =>
    ⟨txt "Expected type `%s`; got type `%s`", [.text expected.text, .text got.text]⟩
  | argumentMismatch expected got index =>
    ⟨txt "Expected type `%s`; got type `%s` in parameter %d",
      [.text expected.text, .text got.text, .number index]⟩
  | returnsNothing expected => ⟨txt "Expected type `%s`; got `None`", [.text expected.text]⟩
  | badCondition got => ⟨txt "Condition expression cannot be of type `%s`", [.text got.text]⟩
  | noneListToMany => ⟨txt "Right-hand side of multiple assignment may not be [<None>]", []⟩
  | strIsNoList => ⟨txt "`str` is not a list type", []⟩
  | notIterable got => ⟨txt "Cannot iterate over value of type `%s`", [.text got.text]⟩
  | topLevelReturn => ⟨txt "Return statement cannot appear at the top level", []⟩
  | notVariable n => ⟨txt "Not a variable: %s", [.text n]⟩
  | unaryOperand op t =>
    ⟨txt "Cannot apply operator `%s` on type `%s`", [.text op, .text t.text]⟩
  | binaryOperands op l r =>
    ⟨txt "Cannot apply operator `%s` on types `%s` and `%s`",
      [.text op, .text l.text, .text r.text]⟩
  | notIndexable got => ⟨txt "Cannot index into type `%s`", [.text got.text]⟩
  | badIndex got => ⟨txt "Index is of non-integer type `%s`", [.text got.text]⟩
  | notObject got => ⟨txt "Cannot access attribute of non-class type `%s`", [.text got.text]⟩
  | noAttribute n c => ⟨txt "There is no attribute named `%s` in class `%s`", [.text n, .text c]⟩
  | argumentCount expected got =>
    ⟨txt "Expected %d arguments; got %d", [.number expected, .number got]⟩
  | specialInstance n => ⟨txt "Cannot instantiate special class: %s", [.text n]⟩
  | notCallable n => ⟨txt "Not a function or class: %s", [.text n]⟩
  | noMethod n t => ⟨txt "There is no method named `%s` in class `%s`", [.text n, .text t.text]⟩

end Problem

/-- Something at a place, which may also lie outside every text. -/
structure Located (α : Type) where
  line : Int
  col : Int
  what : α
deriving DecidableEq, Repr

namespace Located

variable {α : Type}

def ofLoc (loc : Loc) (a : α) : Located α := ⟨loc.line, loc.col, a⟩

/-- Source order. -/
def le (a b : Located α) : Bool := a.line < b.line || (a.line == b.line && a.col ≤ b.col)

/-- The order of equal places is kept. -/
def sorted (xs : List (Located α)) : List (Located α) := xs.mergeSort le

/-- One line of text, as in `line:col: message`. -/
def render (message : α → Bytes) (x : Located α) : Bytes :=
  signed x.line ++ txt ":" ++ signed x.col ++ txt ": " ++ message x.what

end Located

abbrev Diagnostic := Located Problem

def Diagnostic.text (d : Diagnostic) : Bytes := d.render (·.message.text)

/-- A value and the diagnostics met on the way to it. -/
structure Reporting (α : Type) where
  value : α
  diagnostics : List Diagnostic

namespace Reporting

variable {α β : Type}

protected def pure (a : α) : Reporting α := ⟨a, []⟩

protected def bind (x : Reporting α) (f : α → Reporting β) : Reporting β :=
  let y := f x.value
  ⟨y.value, x.diagnostics ++ y.diagnostics⟩

instance : Monad Reporting where
  pure := Reporting.pure
  bind := Reporting.bind

@[simp] theorem value_pure (a : α) : (pure a : Reporting α).value = a := rfl

@[simp] theorem diagnostics_pure (a : α) : (pure a : Reporting α).diagnostics = [] := rfl

@[simp] theorem value_bind (x : Reporting α) (f : α → Reporting β) :
    (x >>= f).value = (f x.value).value := rfl

/-- Diagnostics come in the order of the steps. -/
@[simp] theorem diagnostics_bind (x : Reporting α) (f : α → Reporting β) :
    (x >>= f).diagnostics = x.diagnostics ++ (f x.value).diagnostics := rfl

instance : LawfulMonad Reporting :=
  LawfulMonad.mk' Reporting
    (fun ⟨a, ds⟩ => by simp [Functor.map, Reporting.bind, Reporting.pure])
    (fun a f => by simp [Bind.bind, Pure.pure, Reporting.bind, Reporting.pure])
    (fun x f g => by simp [Bind.bind, Reporting.bind])

def report (loc : Loc) (p : Problem) : Reporting Unit := ⟨(), [.ofLoc loc p]⟩

end Reporting

end ChocoRv
