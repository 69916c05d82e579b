import ChocoRv.Proofs.SExpressions

/-!
# Dumps as s-expressions

`sexp` is the dump of a node before it is written out: the dump is its text.
-/

namespace ChocoRv

open Sexp (word str node)

/-! ### Nodes as s-expressions -/

def Lit.sexp : Lit → Sexp
  | int value => word (signed value)
  | str value => .str value
  | bool value => word (if value then txt "True" else txt "False")
  | none => word (txt "None")

mutual

def Expr.sexp : Expr → Sexp
  | .lit l => l.value.sexp
  | .name id => word id.name
  | .unary _ op e => node [word op.spelling, e.sexp]
  | .binary _ l op r => node [word op.spelling, l.sexp, r.sexp]
  | .cond _ test yes no => node [word (txt "ifexpr"), test.sexp, yes.sexp, no.sexp]
  | .list _ elems => node (word (txt "list") :: Expr.sexps elems)
  | .index _ seq i => node [word (txt "index"), seq.sexp, i.sexp]
  | .member _ object id => node [word (txt "."), object.sexp, word id.name]
  | .call _ callee args => node (word (txt "call") :: word callee.name :: Expr.sexps args)
  | .methodCall _ _ object id args =>
    node (word (txt "method") :: node [word (txt "."), object.sexp, word id.name] ::
      Expr.sexps args)

def Expr.sexps : List Expr → List Sexp
  | [] => []
  | e :: es => e.sexp :: Expr.sexps es

end

mutual

def Stmt.sexp : Stmt → Sexp
  | .expr _ e => e.sexp
  | .assign _ targets value => node (word (txt "=") :: Expr.sexps (targets ++ [value]))
  | .ite _ test yes no =>
    node [word (txt "if"), test.sexp, node (word (txt "then") :: Stmt.sexps yes),
      node (word (txt "else") :: Stmt.sexps no)]
  | .loop _ test body =>
    node [word (txt "while"), test.sexp, node (word (txt "do") :: Stmt.sexps body)]
  | .each _ id iterable body =>
    node [word (txt "for"), word id.name, iterable.sexp,
      node (word (txt "do") :: Stmt.sexps body)]
  | .ret _ none => node [word (txt "return")]
  | .ret _ (some e) => node [word (txt "return"), e.sexp]

def Stmt.sexps : List Stmt → List Sexp
  | [] => []
  | s :: ss => s.sexp :: Stmt.sexps ss

end

def VarDef.sexp (d : VarDef) : Sexp :=
  node [word (txt "var"), word d.name, word d.var.typeExpr.text, d.value.value.sexp]

mutual

def FuncDef.sexp : FuncDef → Sexp
  | .mk _ id params ret? decls body =>
    node ([word (txt "def"), word id.name, node (params.map fun v => word v.dump)] ++
      (match ret? with | none => [] | some ret => [word (txt "->"), word ret.text]) ++
      [node (word (txt "decls") :: LocalDecl.sexps decls),
        node (word (txt "stmts") :: Stmt.sexps body)])

def LocalDecl.sexp : LocalDecl → Sexp
  | .var d => d.sexp
  | .global _ id => node [word (txt "global"), word id.name]
  | .nonlocal _ id => node [word (txt "nonlocal"), word id.name]
  | .func f => f.sexp

def LocalDecl.sexps : List LocalDecl → List Sexp
  | [] => []
  | d :: ds => d.sexp :: LocalDecl.sexps ds

end

def Member.sexp : Member → Sexp
  | attr d => d.sexp
  | method f => f.sexp

def ClassDef.sexp (c : ClassDef) : Sexp :=
  node [word (txt "class"), word c.name, word c.super.name,
    node (word (txt "decls") :: c.members.map Member.sexp)]

def TopDecl.sexp : TopDecl → Sexp
  | var d => d.sexp
  | func f => f.sexp
  | cls c => c.sexp

def Program.sexp (p : Program) : Sexp :=
  node [word (txt "program"), node (word (txt "decls") :: p.decls.map TopDecl.sexp),
    node (word (txt "stmts") :: Stmt.sexps p.body)]

theorem Expr.sexps_eq_map (es : List Expr) : Expr.sexps es = es.map Expr.sexp := by
  induction es with
  | nil => rfl
  | cons e es ih => simp [Expr.sexps, ih]

theorem Stmt.sexps_eq_map (ss : List Stmt) : Stmt.sexps ss = ss.map Stmt.sexp := by
  induction ss with
  | nil => rfl
  | cons s ss ih => simp [Stmt.sexps, ih]

theorem LocalDecl.sexps_eq_map (ds : List LocalDecl) :
    LocalDecl.sexps ds = ds.map LocalDecl.sexp := by
  induction ds with
  | nil => rfl
  | cons d ds ih => simp [LocalDecl.sexps, ih]

/-! ### The dump is the text of the s-expression -/

theorem Lit.text_sexp (l : Lit) : l.sexp.text = l.dump := by
  cases l with
  | int value => simp only [Lit.sexp, Sexp.text, Lit.dump]
  | str value => simp only [Lit.sexp, Sexp.text, Lit.dump]
  | bool value => cases value <;> simp [Lit.sexp, Sexp.text, Lit.dump]
  | none => simp only [Lit.sexp, Sexp.text, Lit.dump]

mutual

theorem Expr.text_sexp : ∀ e : Expr, e.sexp.text = e.dump
  | .lit l => by simp only [Expr.sexp, Expr.dump, l.value.text_sexp]
  | .name id => by simp only [Expr.sexp, Expr.dump, Sexp.text]
  | .unary _ op e => by simp only [Expr.sexp, Expr.dump, Sexp.text, Sexp.texts, e.text_sexp]
  | .binary _ l op r => by
    simp only [Expr.sexp, Expr.dump, Sexp.text, Sexp.texts, l.text_sexp, r.text_sexp]
  | .cond _ test yes no => by
    simp only [Expr.sexp, Expr.dump, Sexp.text, Sexp.texts, test.text_sexp, yes.text_sexp,
      no.text_sexp]
  | .list _ elems => by
    simp only [Expr.sexp, Expr.dump, Sexp.text, Sexp.texts, Expr.texts_sexps elems]
  | .index _ seq i => by
    simp only [Expr.sexp, Expr.dump, Sexp.text, Sexp.texts, seq.text_sexp, i.text_sexp]
  | .member _ object id => by
    simp only [Expr.sexp, Expr.dump, Sexp.text, Sexp.texts, object.text_sexp]
  | .call _ callee args => by
    simp only [Expr.sexp, Expr.dump, Sexp.text, Sexp.texts, Expr.texts_sexps args]
  | .methodCall _ _ object id args => by
    simp only [Expr.sexp, Expr.dump, Sexp.text, Sexp.texts, object.text_sexp,
      Expr.texts_sexps args]

theorem Expr.texts_sexps : ∀ es : List Expr, Sexp.texts (Expr.sexps es) = Expr.dumps es
  | [] => by simp only [Expr.sexps, Sexp.texts, Expr.dumps]
  | e :: es => by
    simp only [Expr.sexps, Sexp.texts, Expr.dumps, e.text_sexp, Expr.texts_sexps es]

end

theorem Expr.dumps_append (es : List Expr) (e : Expr) :
    Expr.dumps (es ++ [e]) = Expr.dumps es ++ [e.dump] := by
  induction es with
  | nil => simp [Expr.dumps]
  | cons e' es ih => simp [Expr.dumps, ih]

mutual

theorem Stmt.text_sexp : ∀ s : Stmt, s.sexp.text = s.dump
  | .expr _ e => by simp only [Stmt.sexp, Stmt.dump, e.text_sexp]
  | .assign _ targets value => by
    simp only [Stmt.sexp, Stmt.dump, Sexp.text, Sexp.texts, Expr.texts_sexps, Expr.dumps_append]
  | .ite _ test yes no => by
    simp only [Stmt.sexp, Stmt.dump, Sexp.text, Sexp.texts, test.text_sexp, Stmt.texts_sexps yes,
      Stmt.texts_sexps no]
  | .loop _ test body => by
    simp only [Stmt.sexp, Stmt.dump, Sexp.text, Sexp.texts, test.text_sexp, Stmt.texts_sexps body]
  | .each _ id iterable body => by
    simp only [Stmt.sexp, Stmt.dump, Sexp.text, Sexp.texts, iterable.text_sexp,
      Stmt.texts_sexps body]
  | .ret _ none => by simp only [Stmt.sexp, Stmt.dump, Sexp.text, Sexp.texts]
  | .ret _ (some e) => by simp only [Stmt.sexp, Stmt.dump, Sexp.text, Sexp.texts, e.text_sexp]

theorem Stmt.texts_sexps : ∀ ss : List Stmt, Sexp.texts (Stmt.sexps ss) = Stmt.dumps ss
  | [] => by simp only [Stmt.sexps, Sexp.texts, Stmt.dumps]
  | s :: ss => by
    simp only [Stmt.sexps, Sexp.texts, Stmt.dumps, s.text_sexp, Stmt.texts_sexps ss]

end

theorem VarDef.text_sexp (d : VarDef) : d.sexp.text = d.dump := by
  simp only [VarDef.sexp, VarDef.dump, Sexp.text, Sexp.texts, Lit.text_sexp]

mutual

theorem FuncDef.text_sexp : ∀ f : FuncDef, f.sexp.text = f.dump
  | .mk _ id params ret? decls body => by
    have hparams : Sexp.texts (params.map fun v => word v.dump) = params.map TypedVar.dump := by
      rw [Sexp.texts_eq_map, List.map_map]
      exact List.map_congr_left fun v _ => by simp only [Function.comp_apply, Sexp.text]
    cases ret? with
    | none =>
      simp only [FuncDef.sexp, FuncDef.dump, List.append_nil, List.cons_append, List.nil_append,
        Sexp.text, Sexp.texts, hparams, LocalDecl.texts_sexps decls, Stmt.texts_sexps]
    | some ret =>
      simp only [FuncDef.sexp, FuncDef.dump, List.cons_append, List.nil_append, Sexp.text,
        Sexp.texts, hparams, LocalDecl.texts_sexps decls, Stmt.texts_sexps]

theorem LocalDecl.text_sexp : ∀ d : LocalDecl, d.sexp.text = d.dump
  | .var d => by simp only [LocalDecl.sexp, LocalDecl.dump, d.text_sexp]
  | .global _ id => by simp only [LocalDecl.sexp, LocalDecl.dump, Sexp.text, Sexp.texts]
  | .nonlocal _ id => by simp only [LocalDecl.sexp, LocalDecl.dump, Sexp.text, Sexp.texts]
  | .func f => by simp only [LocalDecl.sexp, LocalDecl.dump, f.text_sexp]

theorem LocalDecl.texts_sexps : ∀ ds : List LocalDecl,
    Sexp.texts (LocalDecl.sexps ds) = LocalDecl.dumps ds
  | [] => by simp only [LocalDecl.sexps, Sexp.texts, LocalDecl.dumps]
  | d :: ds => by
    simp only [LocalDecl.sexps, Sexp.texts, LocalDecl.dumps, d.text_sexp,
      LocalDecl.texts_sexps ds]

end

theorem Member.text_sexp (m : Member) : m.sexp.text = m.dump := by
  cases m with
  | attr d => exact d.text_sexp
  | method f => exact f.text_sexp

theorem ClassDef.text_sexp (c : ClassDef) : c.sexp.text = c.dump := by
  simp only [ClassDef.sexp, ClassDef.dump, Sexp.text, Sexp.texts, Sexp.texts_eq_map, List.map_map,
    Function.comp_def, Member.text_sexp]

theorem TopDecl.text_sexp (d : TopDecl) : d.sexp.text = d.dump := by
  cases d with
  | var d => exact d.text_sexp
  | func f => exact f.text_sexp
  | cls c => exact c.text_sexp

theorem Program.text_sexp (p : Program) : p.sexp.text = p.dump := by
  have hdecls : Sexp.texts (p.decls.map TopDecl.sexp) = p.decls.map TopDecl.dump := by
    rw [Sexp.texts_eq_map, List.map_map]
    exact List.map_congr_left fun d _ => d.text_sexp
  simp only [Program.sexp, Program.dump, Sexp.text, Sexp.texts, Stmt.texts_sexps, hdecls]

end ChocoRv
