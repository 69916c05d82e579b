import ChocoRv.Proofs.DumpShapes
import ChocoRv.Proofs.Lexical
import ChocoRv.Proofs.Places

/-!
# Readers of dumps

The readers take the s-expression of a node back to the node, with all its places at one spot: the
head and the number of the parts tell which node it is. A word is a name unless it is a number or
one of the words for literals.
-/

namespace ChocoRv

open Sexp (word str node)

/-! ### Words -/

theorem isAtom_of_isNamePart {b : UInt8} (h : Byte.isNamePart b = true) :
    Sexp.isAtom b = true := by
  have hne {c : UInt8} (hc : Byte.isNamePart c = false) : (b != c) = true := by
    rw [bne_iff_ne]
    rintro rfl
    rw [h] at hc
    cases hc
  have hspace : Byte.isNamePart ' '.toUInt8 = false := by decide
  have hquote : Byte.isNamePart '"'.toUInt8 = false := by decide
  have hopen : Byte.isNamePart '('.toUInt8 = false := by decide
  have hclose : Byte.isNamePart ')'.toUInt8 = false := by decide
  simp only [Sexp.isAtom, hne hspace, hne hquote, hne hopen, hne hclose, Bool.and_self]

namespace ValidName

variable {n : Name}

theorem isNamePart (h : ValidName n) : ∀ b ∈ n, Byte.isNamePart b = true := by
  obtain ⟨c, cs, rfl, hc, hcs⟩ := h.spelled
  refine List.forall_mem_cons.2 ⟨?_, hcs⟩
  rw [Byte.isNameStart] at hc
  rw [Byte.isNamePart, hc, Bool.true_or]

theorem ne_nil (h : ValidName n) : n ≠ [] := by
  obtain ⟨c, cs, rfl, -, -⟩ := h.spelled
  exact List.cons_ne_nil c cs

theorem sound (h : ValidName n) : (word n).Sound := by
  rw [Sexp.Sound]
  exact ⟨h.ne_nil, List.all_eq_true.2 fun b hb => isAtom_of_isNamePart (h.isNamePart b hb)⟩

theorem ne_spelling (h : ValidName n) (k : Keyword) : n ≠ k.spelling :=
  Keyword.ne_spelling_of_ofSpelling? h.free k

theorem head?_isDigit (h : ValidName n) : n.head?.any Byte.isDigit = false := by
  obtain ⟨c, cs, rfl, hc, -⟩ := h.spelled
  exact (Byte.of_isNameStart hc).2.1

end ValidName

theorem decimal_ne_nil (n : Nat) : decimal n ≠ [] := by
  intro h
  have hvalue := value_decimal n
  rw [h] at hvalue
  obtain rfl : 0 = n := hvalue
  exact absurd h (by decide)

theorem decimal_sound (n : Nat) : (word (decimal n)).Sound := by
  rw [Sexp.Sound]
  refine ⟨decimal_ne_nil n, List.all_eq_true.2 fun b hb => ?_⟩
  exact isAtom_of_isNamePart (Byte.isNamePart_of_isDigit (isDigit_of_mem_decimal hb))

/-! ### Readers -/

/-- The places of trees that are read back. -/
def Mark.spot : Mark := ⟨Loc.spot ⟨1, 1⟩, none⟩

/-- The literal that a word stands for, if it is no name. -/
def Lit.ofWord? (w : Bytes) : Option Lit :=
  if w = txt "True" then some (.bool true)
  else if w = txt "False" then some (.bool false)
  else if w = txt "None" then some .none
  else if w.head?.any Byte.isDigit then some (.int w.value)
  else Option.none

def Expr.ofWord (w : Bytes) : Expr :=
  match Lit.ofWord? w with
  | some l => .lit ⟨Mark.spot, l⟩
  | none => .name ⟨Mark.spot, w⟩

def BinOp.all : List BinOp :=
  [add, sub, mul, floorDiv, mod, eq, ne, lt, gt, le, ge, is, and, or]

def BinOp.ofSpelling? (w : Bytes) : Option BinOp := all.find? (·.spelling == w)

/-- The expression with this head and these parts. -/
def Expr.build? (head : Bytes) (parts : List Expr) : Option Expr :=
  if head = txt "list" then some (.list Mark.spot parts)
  else if head = txt "call" then
    match parts with
    | .name id :: args => some (.call Mark.spot id args)
    | _ => none
  else if head = txt "method" then
    match parts with
    | .member _ object id :: args => some (.methodCall Mark.spot Mark.spot object id args)
    | _ => none
  else match parts with
    | [e] =>
      if head = txt "-" then some (.unary Mark.spot .neg e)
      else if head = txt "not" then some (.unary Mark.spot .not e)
      else none
    | [l, r] =>
      if head = txt "index" then some (.index Mark.spot l r)
      else if head = txt "." then
        match r with
        | .name id => some (.member Mark.spot l id)
        | _ => none
      else (BinOp.ofSpelling? head).map (.binary Mark.spot l · r)
    | [test, yes, no] =>
      if head = txt "ifexpr" then some (.cond Mark.spot test yes no) else none
    | _ => none

namespace Sexp

mutual

def expr? : Sexp → Option Expr
  | word w => some (Expr.ofWord w)
  | str s => some (.lit ⟨Mark.spot, .str s⟩)
  | node (word head :: parts) => (exprs? parts).bind (Expr.build? head)
  | node _ => none

def exprs? : List Sexp → Option (List Expr)
  | [] => some []
  | x :: xs => do return (← x.expr?) :: (← exprs? xs)

end

end Sexp

/-- The statement with these parts; `blocks` has the statements in each part that is a block. -/
def Stmt.build? (parts : List Sexp) (blocks : List (Option (List Stmt))) : Option Stmt :=
  match parts with
  | word head :: rest =>
    if head = txt "=" then do
      let es ← Sexp.exprs? rest
      return .assign Mark.spot.loc es.dropLast (← es.getLast?)
    else if head = txt "if" then
      match rest, blocks with
      | [test, _, _], [_, _, yes, no] => do
        return .ite Mark.spot.loc (← test.expr?) (← yes) (← no)
      | _, _ => none
    else if head = txt "while" then
      match rest, blocks with
      | [test, _], [_, _, body] => do return .loop Mark.spot.loc (← test.expr?) (← body)
      | _, _ => none
    else if head = txt "for" then
      match rest, blocks with
      | [word name, iterable, _], [_, _, _, body] => do
        return .each Mark.spot.loc ⟨Mark.spot, name⟩ (← iterable.expr?) (← body)
      | _, _ => none
    else if head = txt "return" then
      match rest with
      | [] => some (.ret Mark.spot.loc none)
      | value :: _ => value.expr?.map fun e => .ret Mark.spot.loc (some e)
    else (node parts).expr?.map (.expr Mark.spot.loc)
  | _ => (node parts).expr?.map (.expr Mark.spot.loc)

namespace Sexp

mutual

def stmt? : Sexp → Option Stmt
  | word w => (word w).expr?.map (.expr Mark.spot.loc)
  | str s => (str s).expr?.map (.expr Mark.spot.loc)
  | node parts => Stmt.build? parts (blocks? parts)

/-- A block is a head with statements. -/
def block? : Sexp → Option (List Stmt)
  | node (_ :: ss) => stmts? ss
  | _ => none

def blocks? : List Sexp → List (Option (List Stmt))
  | [] => []
  | x :: xs => x.block? :: blocks? xs

def stmts? : List Sexp → Option (List Stmt)
  | [] => some []
  | x :: xs => do return (← x.stmt?) :: (← stmts? xs)

end

end Sexp

/-- The annotation with this text. -/
def TypeExpr.ofText : Bytes → TypeExpr
  | [] => .cls Mark.spot.loc []
  | b :: bs =>
    if b = '['.toUInt8 then .list Mark.spot.loc (ofText bs.dropLast)
    else .cls Mark.spot.loc (b :: bs)
termination_by text => text.length
decreasing_by grind

namespace Sexp

def typedVar? : Sexp → Option TypedVar
  | word w => some ⟨⟨Mark.spot, w.takeWhile Byte.isNamePart⟩,
      TypeExpr.ofText ((w.dropWhile Byte.isNamePart).drop 1)⟩
  | _ => none

def literal? (x : Sexp) : Option Literal :=
  match x.expr? with
  | some (.lit l) => some l
  | _ => none

end Sexp

def FuncDef.build? (name : Name) (params : List Sexp) (ret? : Option Bytes)
    (decls : Option (List LocalDecl)) (body : Sexp) : Option LocalDecl := do
  return .func (.mk Mark.spot.loc ⟨Mark.spot, name⟩ (← params.mapM Sexp.typedVar?)
    (ret?.map TypeExpr.ofText) (← decls) (← body.block?))

/-- The declaration with these parts; `groups` has the declarations in each part that is a group.
The nodes of declarations differ in the number of their parts. -/
def LocalDecl.build? (parts : List Sexp) (groups : List (Option (List LocalDecl))) :
    Option LocalDecl :=
  match parts with
  | [word head, word name] =>
    if head = txt "global" then some (.global Mark.spot.loc ⟨Mark.spot, name⟩)
    else some (.nonlocal Mark.spot.loc ⟨Mark.spot, name⟩)
  | [_, word name, word type, value] => do
    return .var ⟨⟨⟨Mark.spot, name⟩, TypeExpr.ofText type⟩, ← value.literal?⟩
  | _ :: word name :: node params :: rest =>
    match rest, groups.drop 3 with
    | [_, body], [decls, _] => FuncDef.build? name params none decls body
    | [_, word ret, _, body], [_, _, decls, _] =>
      FuncDef.build? name params (some ret) decls body
    | _, _ => none
  | _ => none

namespace Sexp

mutual

def decl? : Sexp → Option LocalDecl
  | node parts => LocalDecl.build? parts (groups? parts)
  | _ => none

/-- A group is a head with declarations. -/
def group? : Sexp → Option (List LocalDecl)
  | node (_ :: ds) => decls? ds
  | _ => none

def groups? : List Sexp → List (Option (List LocalDecl))
  | [] => []
  | x :: xs => x.group? :: groups? xs

def decls? : List Sexp → Option (List LocalDecl)
  | [] => some []
  | x :: xs => do return (← x.decl?) :: (← decls? xs)

end

section

variable (head name arrow ret g b : Bytes) (params ds body : List Sexp)

theorem decl?_func :
    decl? (node [word head, word name, node params, node (word g :: ds), node (word b :: body)]) =
      FuncDef.build? name params none (decls? ds) (node (word b :: body)) := by
  rw [decl?]
  rfl

theorem decl?_func_to :
    decl? (node [word head, word name, node params, word arrow, word ret, node (word g :: ds),
      node (word b :: body)]) =
      FuncDef.build? name params (some ret) (decls? ds) (node (word b :: body)) := by
  rw [decl?]
  rfl

end

end Sexp

def LocalDecl.member? : LocalDecl → Option Member
  | var d => some (.attr d)
  | func f => some (.method f)
  | _ => none

def LocalDecl.topDecl? : LocalDecl → Option TopDecl
  | var d => some (.var d)
  | func f => some (.func f)
  | _ => none

namespace Sexp

def member? (x : Sexp) : Option Member := x.decl?.bind LocalDecl.member?

def topDecl? : Sexp → Option TopDecl
  | node [_, word name, word super, node (_ :: members)] => do
    return .cls ⟨Mark.spot.loc, ⟨Mark.spot, name⟩, ⟨Mark.spot, super⟩, ← members.mapM member?⟩
  | x => x.decl?.bind LocalDecl.topDecl?

def program? : Sexp → Option Program
  | node [_, node (_ :: decls), node (_ :: body)] => do
    return ⟨← decls.mapM topDecl?, ← stmts? body⟩
  | _ => none

end Sexp

/-! ### Literals and names are read back -/

theorem Lit.ofWord?_name {n : Name} (h : ValidName n) : Lit.ofWord? n = Option.none := by
  have htrue : n ≠ txt "True" := h.ne_spelling .true_
  have hfalse : n ≠ txt "False" := h.ne_spelling .false_
  have hnone : n ≠ txt "None" := h.ne_spelling .none_
  rw [Lit.ofWord?, if_neg htrue, if_neg hfalse, if_neg hnone, h.head?_isDigit]
  rfl

theorem Expr.ofWord_name {n : Name} (h : ValidName n) :
    Expr.ofWord n = .name ⟨Mark.spot, n⟩ := by
  rw [Expr.ofWord, Lit.ofWord?_name h]

theorem Lit.ofWord?_decimal (n : Nat) : Lit.ofWord? (decimal n) = some (.int n) := by
  obtain ⟨d, ds, hds⟩ := List.exists_cons_of_ne_nil (decimal_ne_nil n)
  have hdigit : Byte.isDigit d = true := isDigit_of_mem_decimal (hds ▸ List.mem_cons_self)
  have hne {w : Bytes} (hw : w.head?.any Byte.isDigit = false) : decimal n ≠ w := by
    rintro rfl
    rw [hds] at hw
    simp [hdigit] at hw
  rw [Lit.ofWord?, if_neg (hne (by decide)), if_neg (hne (by decide)), if_neg (hne (by decide)),
    value_decimal, hds]
  simp [hdigit]

/-! ### Heads -/

theorem Expr.build?_unary (op : UnOp) (e : Expr) :
    build? op.spelling [e] = some (.unary Mark.spot op e) := by
  cases op <;> rfl

theorem Expr.build?_binary (l : Expr) (op : BinOp) (r : Expr) :
    build? op.spelling [l, r] = some (.binary Mark.spot l op r) := by
  cases op <;> rfl

/-- The heads of statements that are no expressions. -/
def Stmt.heads : List Bytes := [txt "=", txt "if", txt "while", txt "for", txt "return"]

theorem Sexp.stmt?_of_head {head : Bytes} (h : head ∉ Stmt.heads) (rest : List Sexp) :
    (node (word head :: rest)).stmt? =
      (node (word head :: rest)).expr?.map (.expr Mark.spot.loc) := by
  simp only [Stmt.heads, List.mem_cons, List.not_mem_nil, or_false, not_or] at h
  obtain ⟨hassign, hif, hwhile, hfor, hreturn⟩ := h
  simp only [stmt?, Stmt.build?, hassign, hif, hwhile, hfor, hreturn, if_false]

theorem UnOp.spelling_notMem_heads (op : UnOp) : op.spelling ∉ Stmt.heads := by
  cases op <;> decide

theorem BinOp.spelling_notMem_heads (op : BinOp) : op.spelling ∉ Stmt.heads := by
  cases op <;> decide

end ChocoRv
