import ChocoRv.Proofs.Accepted
import Mathlib.Algebra.Group.Nat.Defs

/-!
# The imperative core

Programs with global variables of types `int` and `bool` only: assignments, branches and loops over
arithmetic, comparisons and logic. Integers wrap around at 32 bits, division rounds down, and
evaluation goes from left to right and stops where the result is known. A run is given a number of
steps; it ends, divides by zero, or is still unfinished.
-/

namespace ChocoRv

/-! ### The programs -/

def Lit.isCore : Lit → Bool
  | .int _ | .bool _ => true
  | .str _ | .none => false

/-- Literals, variables, operators and conditional expressions with branches of one type. -/
def Expr.isCore : Expr → Bool
  | .lit l => l.value.isCore
  | .name _ => true
  | .unary _ _ e => e.isCore
  | .binary _ l op r => op != .is && l.isCore && r.isCore
  | .cond _ test yes no => test.isCore && yes.isCore && no.isCore && yes.type? == no.type?
  | .list .. | .index .. | .member .. | .call .. | .methodCall .. => false

def Expr.isName : Expr → Bool
  | .name _ => true
  | _ => false

mutual

/-- Assignments to variables, expression statements, branches and `while` loops. -/
def Stmt.isCore : Stmt → Bool
  | .expr _ e => e.isCore
  | .assign _ targets value => targets.all Expr.isName && value.isCore
  | .ite _ test yes no => test.isCore && Stmt.allCore yes && Stmt.allCore no
  | .loop _ test body => test.isCore && Stmt.allCore body
  | .each .. | .ret .. => false

def Stmt.allCore : List Stmt → Bool
  | [] => true
  | s :: ss => s.isCore && Stmt.allCore ss

end

/-- A variable that is annotated with `int` or `bool`. -/
def TopDecl.isCore : TopDecl → Bool
  | .var d => d.ty == .int || d.ty == .bool
  | .func _ | .cls _ => false

def Program.isCore (p : Program) : Bool := p.decls.all TopDecl.isCore && Stmt.allCore p.body

namespace Core

/-! ### Their meaning -/

inductive Value where
  | int (n : Int)
  | bool (b : Bool)
deriving DecidableEq, Repr

/-- Why an expression has no value. -/
inductive Stop where
  | divZero
  /-- An operation on values of the wrong kind, or a name without a value. -/
  | stuck
deriving DecidableEq, Repr

/-- The number of 32 bits, with its sign, that a number wraps around to. -/
def wrap (n : Int) : Int := n.bmod (2 ^ 32)

abbrev Store := Name → Option Value

def Store.set (σ : Store) (x : Name) (v : Value) : Store := fun y => if y = x then some v else σ y

def litValue? : Lit → Option Value
  | .int n => some (.int n)
  | .bool b => some (.bool b)
  | .str _ | .none => none

def applyUnary : UnOp → Value → Except Stop Value
  | .neg, .int a => .ok (.int (wrap (-a)))
  | .not, .bool b => .ok (.bool !b)
  | _, _ => .error .stuck

/-- Operators that need the values of both operands. -/
def applyBinary : BinOp → Value → Value → Except Stop Value
  | .add, .int a, .int b => .ok (.int (wrap (a + b)))
  | .sub, .int a, .int b => .ok (.int (wrap (a - b)))
  | .mul, .int a, .int b => .ok (.int (wrap (a * b)))
  | .floorDiv, .int a, .int b => if b = 0 then .error .divZero else .ok (.int (wrap (a.fdiv b)))
  | .mod, .int a, .int b => if b = 0 then .error .divZero else .ok (.int (wrap (a.fmod b)))
  | .lt, .int a, .int b => .ok (.bool (a < b))
  | .gt, .int a, .int b => .ok (.bool (a > b))
  | .le, .int a, .int b => .ok (.bool (a ≤ b))
  | .ge, .int a, .int b => .ok (.bool (a ≥ b))
  | .eq, .int a, .int b => .ok (.bool (a = b))
  | .ne, .int a, .int b => .ok (.bool (a ≠ b))
  | .eq, .bool a, .bool b => .ok (.bool (a = b))
  | .ne, .bool a, .bool b => .ok (.bool (a ≠ b))
  | _, _, _ => .error .stuck

def truth : Value → Except Stop Bool
  | .bool b => .ok b
  | .int _ => .error .stuck

def eval (σ : Store) : Expr → Except Stop Value
  | .lit l => (litValue? l.value).elim (.error .stuck) .ok
  | .name id => (σ id.name).elim (.error .stuck) .ok
  | .unary _ op e => do applyUnary op (← eval σ e)
  | .binary _ l op r =>
    match op with
    | .and => do if ← truth (← eval σ l) then eval σ r else return .bool false
    | .or => do if ← truth (← eval σ l) then return .bool true else eval σ r
    | _ => do
      let a ← eval σ l
      applyBinary op a (← eval σ r)
  | .cond _ test yes no => do if ← truth (← eval σ test) then eval σ yes else eval σ no
  | .list .. | .index .. | .member .. | .call .. | .methodCall .. => .error .stuck

/-- How far a run has come. -/
inductive Outcome where
  | ended (σ : Store)
  | stopped (why : Stop)
  /-- The given number of steps was too small. -/
  | unfinished

/-- Goes on with the value, if there is one. -/
def Outcome.after {α : Type} (r : Except Stop α) (rest : α → Outcome) : Outcome :=
  match r with
  | .ok a => rest a
  | .error why => .stopped why

/-- Goes on from the store that a run ends with. -/
def Outcome.andThen (first : Outcome) (rest : Store → Outcome) : Outcome :=
  match first with
  | .ended σ => rest σ
  | r => r

/-- The value of a variable at the end. -/
def Outcome.value? : Outcome → Name → Option Value
  | .ended σ, x => σ x
  | _, _ => none

theorem Outcome.exists_of_value? {o : Outcome} {x : Name} {v : Value} (h : o.value? x = some v) :
    ∃ σ, o = .ended σ ∧ σ x = some v := by
  cases o with
  | ended σ => exact ⟨σ, rfl, h⟩
  | stopped | unfinished => cases h

/-- Stores a value in each of the targets. -/
def assign (v : Value) : List Expr → Store → Except Stop Store
  | [], σ => .ok σ
  | .name id :: es, σ => assign v es (σ.set id.name v)
  | _ :: _, _ => .error .stuck

mutual

def exec : Nat → Stmt → Store → Outcome
  | 0, _, _ => .unfinished
  | n + 1, s, σ =>
    match s with
    | .expr _ e => .after (eval σ e) fun _ => .ended σ
    | .assign _ targets value =>
      .after (eval σ value) fun v => .after (assign v targets σ) .ended
    | .ite _ test yes no =>
      .after (eval σ test) fun v => .after (truth v) fun b =>
        if b then execAll n yes σ else execAll n no σ
    | .loop loc test body =>
      .after (eval σ test) fun v => .after (truth v) fun b =>
        if b then (execAll n body σ).andThen (exec n (.loop loc test body)) else .ended σ
    | .each .. | .ret .. => .stopped .stuck

def execAll : Nat → List Stmt → Store → Outcome
  | 0, _, _ => .unfinished
  | _ + 1, [], σ => .ended σ
  | n + 1, s :: ss, σ => (exec n s σ).andThen (execAll n ss)

end

end Core

open ChocoRv.Core

/-- The variables with their initial values. -/
def Program.initial (p : Program) : Store := fun x =>
  ((p.decls.filterMap TopDecl.var?).find? (·.name == x)).bind fun d => litValue? d.value.value

/-- A run of the program that takes at most `n` steps in depth. -/
def Program.outcome (p : Program) (n : Nat) : Outcome := execAll n p.body p.initial

/-- The program ends with the store. -/
def Program.Ends (p : Program) (σ : Store) : Prop := ∃ n, p.outcome n = .ended σ

def Program.DividesByZero (p : Program) : Prop := ∃ n, p.outcome n = .stopped .divZero

/-- The program runs forever. -/
def Program.Diverges (p : Program) : Prop := ∀ n, p.outcome n = .unfinished

end ChocoRv
