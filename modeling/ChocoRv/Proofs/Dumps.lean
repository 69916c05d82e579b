import ChocoRv.Proofs.Assignability
import ChocoRv.Proofs.DumpReaders
import ChocoRv.Proofs.WellDeclared

/-!
# Dumps tell trees apart

A dump tells the tree up to its places: the s-expression of a parsed tree is sound, so that the dump
stands for it alone, and the readers take it back to the tree. Both follow from the rules of the
grammar. Words are sound because names are, and strings because they are denoted by literals;
annotations are words only if they name classes, since a quoted annotation can have other bytes.
-/

namespace ChocoRv

open Sexp (word)

/-! ### Tokens -/

/-- Identifiers are names, and strings are denoted by literals. -/
def Token.Kind.Readable : Token.Kind → Prop
  | identifier name => ValidName name
  | string content => ∀ b ∈ content, Sexp.Plain b
  | _ => True

theorem Unescapes.plain_content {body content : Bytes} (h : Unescapes body content) :
    ∀ b ∈ content, Sexp.Plain b := by
  induction h with
  | nil => simp
  | plain hc _ _ _ ih => exact List.forall_mem_cons.2 ⟨.inl hc, ih⟩
  | escape he _ ih =>
    have hescapes : Bytes.escapes.all (fun p => decide (Sexp.Plain p.2)) = true := by decide
    have hplain := of_decide_eq_true (List.all_eq_true.1 hescapes _ he)
    exact List.forall_mem_cons.2 ⟨hplain, ih⟩

theorem Lexer.reads_readable : Reads Token.Kind.Readable := by
  refine ⟨fun {c cs k n} h => ?_, trivial, trivial, trivial, trivial⟩
  cases k with
  | identifier name => exact (lexeme_valid h :)
  | string content =>
    obtain ⟨⟨⟨body, -, hbody⟩, -⟩, -⟩ := lexeme_spelled h
    exact hbody.plain_content
  | _ => trivial

/-! ### Expressions -/

/-- The s-expression is sound, and it is read as the expression at one spot. -/
def Expr.Read (e : Expr) : Prop :=
  e.sexp.Sound ∧ e.sexp.expr? = some (e.moved Loc.spot)

namespace Expr

variable {p q : Loc} {e l r test yes no : Expr} {es : List Expr} {n : Name}

theorem sexps_sound (h : ∀ e ∈ es, e.Read) : Sexp.AllSound (sexps es) := by
  rw [sexps_eq_map, Sexp.allSound_iff]
  intro x hx
  obtain ⟨e, he, rfl⟩ := List.mem_map.1 hx
  exact (h e he).1

theorem exprs?_sexps (h : ∀ e ∈ es, e.Read) :
    Sexp.exprs? (sexps es) = some (allMoved Loc.spot es) := by
  induction es with
  | nil => rfl
  | cons e es ih =>
    obtain ⟨he, hes⟩ := List.forall_mem_cons.1 h
    rw [sexps, Sexp.exprs?, he.2, ih hes]
    rfl

namespace Read

theorem lit {l : Literal} {t : Token} (h : l.Derives t) (ht : t.kind.Readable) :
    (Expr.lit l).Read := by
  cases h with
  | none_ | true_ | false_ => exact ⟨by simp only [sexp, Lit.sexp, Sexp.Sound]; decide, rfl⟩
  | int p value =>
    refine ⟨decimal_sound value, ?_⟩
    have hword : signed (value : Int) = decimal value := rfl
    rw [sexp, Lit.sexp, Sexp.expr?, ofWord, hword, Lit.ofWord?_decimal]
    rfl
  | str p content => exact ⟨by rw [sexp, Lit.sexp, Sexp.Sound]; exact ht, rfl⟩

theorem name (h : ValidName n) : (Expr.name ⟨⟨p, none⟩, n⟩).Read := by
  refine ⟨h.sound, ?_⟩
  rw [sexp, Sexp.expr?, ofWord_name h]
  rfl

theorem unary {op : UnOp} (he : e.Read) : (Expr.unary ⟨p, none⟩ op e).Read := by
  constructor
  · simp only [sexp, Sexp.Sound, Sexp.AllSound, he.1, and_true]
    cases op <;> decide
  · simp only [sexp, Sexp.expr?, Sexp.exprs?, he.2, moved]
    exact build?_unary op _

theorem binary {op : BinOp} (hl : l.Read) (hr : r.Read) :
    (Expr.binary ⟨p, none⟩ l op r).Read := by
  constructor
  · simp only [sexp, Sexp.Sound, Sexp.AllSound, hl.1, hr.1, and_true]
    cases op <;> decide
  · simp only [sexp, Sexp.expr?, Sexp.exprs?, hl.2, hr.2, moved]
    exact build?_binary _ op _

theorem cond (htest : test.Read) (hyes : yes.Read) (hno : no.Read) :
    (Expr.cond ⟨p, none⟩ test yes no).Read := by
  constructor
  · simp only [sexp, Sexp.Sound, Sexp.AllSound, htest.1, hyes.1, hno.1, and_true]
    decide
  · simp only [sexp, Sexp.expr?, Sexp.exprs?, htest.2, hyes.2, hno.2, moved]
    rfl

theorem list (hes : ∀ e ∈ es, e.Read) : (Expr.list ⟨p, none⟩ es).Read := by
  constructor
  · simp only [sexp, Sexp.Sound, Sexp.AllSound, sexps_sound hes, and_true]
    decide
  · simp only [sexp, Sexp.expr?, exprs?_sexps hes, moved]
    rfl

theorem index (hl : l.Read) (hr : r.Read) : (Expr.index ⟨p, none⟩ l r).Read := by
  constructor
  · simp only [sexp, Sexp.Sound, Sexp.AllSound, hl.1, hr.1, and_true]
    decide
  · simp only [sexp, Sexp.expr?, Sexp.exprs?, hl.2, hr.2, moved]
    rfl

theorem member (he : e.Read) (hname : ValidName n) :
    (Expr.member ⟨p, none⟩ e ⟨⟨q, none⟩, n⟩).Read := by
  constructor
  · have hword := hname.sound
    simp only [sexp, Sexp.Sound, Sexp.AllSound, he.1] at hword ⊢
    exact ⟨by decide, trivial, hword, trivial⟩
  · simp only [sexp, Sexp.expr?, Sexp.exprs?, he.2, ofWord_name hname, moved]
    rfl

theorem call (hname : ValidName n) (hes : ∀ e ∈ es, e.Read) :
    (Expr.call ⟨p, none⟩ ⟨⟨q, none⟩, n⟩ es).Read := by
  constructor
  · have hword := hname.sound
    simp only [sexp, Sexp.Sound, Sexp.AllSound, sexps_sound hes] at hword ⊢
    exact ⟨by decide, hword, trivial⟩
  · simp only [sexp, Sexp.expr?, Sexp.exprs?, ofWord_name hname, exprs?_sexps hes, moved]
    rfl

theorem methodCall {r : Loc} (he : e.Read) (hname : ValidName n) (hes : ∀ e ∈ es, e.Read) :
    (Expr.methodCall ⟨p, none⟩ ⟨q, none⟩ e ⟨⟨r, none⟩, n⟩ es).Read := by
  constructor
  · have hword := hname.sound
    simp only [sexp, Sexp.Sound, Sexp.AllSound, he.1, sexps_sound hes] at hword ⊢
    exact ⟨by decide, ⟨by decide, trivial, hword, trivial⟩, trivial⟩
  · simp only [sexp, Sexp.expr?, Sexp.exprs?, he.2, ofWord_name hname, exprs?_sexps hes, moved]
    rfl

end Read

end Expr

namespace ExprPhrase

/-- The expressions that a phrase is about. -/
def exprs : ExprPhrase → List Expr
  | expr e | disjunction e | conjunction e | denial e | comparison e | sum e | product e
  | negation e | primary e | atom e => [e]
  | elems es | items _ es => es

/-- Expressions that tokens spell are read back. -/
theorem Derives.exprs_read {phrase : ExprPhrase} {w : List Token} (h : phrase.Derives w)
    (hw : ∀ t ∈ w, t.kind.Readable) : ∀ e ∈ phrase.exprs, e.Read := by
  induction h with
  | expr _ ih | disjunction _ ih | conjunction _ ih | denial _ ih | comparison _ ih | sum _ ih
  | product _ ih | negation _ ih | primary _ ih | one _ ih => exact ih hw
  | empty close p => exact List.forall_mem_nil _
  | lit hl => exact List.forall_mem_singleton.2 (.lit hl (hw _ List.mem_cons_self))
  | name p name => exact List.forall_mem_singleton.2 (.name (hw _ List.mem_cons_self))
  | cond p q _ _ _ ihyes ihtest ihno =>
    simp only [List.forall_mem_append, List.forall_mem_cons] at hw
    simp only [exprs, List.forall_mem_singleton] at ihyes ihtest ihno ⊢
    exact (ihtest hw.2.2.1).cond (ihyes hw.1) (ihno hw.2.2.2.2)
  | or p _ _ ihl ihr | and p _ _ ihl ihr | compare p _ _ _ ihl ihr | add p _ _ _ ihl ihr
  | mul p _ _ _ ihl ihr =>
    simp only [List.forall_mem_append, List.forall_mem_cons] at hw
    simp only [exprs, List.forall_mem_singleton] at ihl ihr ⊢
    exact (ihl hw.1).binary (ihr hw.2.2)
  | not p _ ih | neg p _ ih =>
    simp only [exprs, List.forall_mem_singleton] at ih ⊢
    exact (ih (List.forall_mem_cons.1 hw).2).unary
  | member p q name _ ih =>
    simp only [List.forall_mem_append, List.forall_mem_cons] at hw
    simp only [exprs, List.forall_mem_singleton] at ih ⊢
    exact (ih hw.1).member hw.2.2.1
  | methodCall p q r name _ _ ih ihargs =>
    simp only [List.forall_mem_append, List.forall_mem_cons] at hw
    simp only [exprs, List.forall_mem_singleton] at ih ihargs ⊢
    exact (ih hw.1).methodCall hw.2.2.1 (ihargs hw.2.2.2.2)
  | index p q _ _ ih ihi =>
    simp only [List.forall_mem_append, List.forall_mem_cons] at hw
    simp only [exprs, List.forall_mem_singleton] at ih ihi ⊢
    exact (ih hw.1).index (ihi hw.2.2.1)
  | call p q name _ ihargs =>
    simp only [List.forall_mem_cons] at hw
    simp only [exprs, List.forall_mem_singleton] at ihargs ⊢
    exact .call hw.1 (ihargs hw.2.2)
  | list p _ ih =>
    simp only [exprs, List.forall_mem_singleton] at ih ⊢
    exact .list (ih (List.forall_mem_cons.1 hw).2)
  | parens p q _ ih =>
    simp only [List.forall_mem_append, List.forall_mem_cons] at hw
    exact ih hw.2.1
  | more p _ _ ihes ihe =>
    simp only [List.forall_mem_append, List.forall_mem_cons] at hw
    exact List.forall_mem_append.2 ⟨ihes hw.1, ihe hw.2.2⟩
  | closed close p _ ih => exact ih (List.forall_mem_append.1 hw).1

theorem Derives.read {e : Expr} {w : List Token} (h : (ExprPhrase.expr e).Derives w)
    (hw : ∀ t ∈ w, t.kind.Readable) : e.Read :=
  h.exprs_read hw e List.mem_cons_self

end ExprPhrase

theorem TargetsDerive.read {es : List Expr} {w : List Token} (h : TargetsDerive es w)
    (hw : ∀ t ∈ w, t.kind.Readable) : ∀ e ∈ es, e.Read := by
  induction h with
  | nil => exact List.forall_mem_nil _
  | snoc p _ _ next ih =>
    simp only [List.forall_mem_append] at hw
    exact List.forall_mem_append.2 ⟨ih hw.1, List.forall_mem_singleton.2 (next.read hw.2.1)⟩

/-! ### Statements -/

def Stmt.Read (s : Stmt) : Prop :=
  s.sexp.Sound ∧ s.sexp.stmt? = some (s.moved Loc.spot)

namespace Stmt

variable {p q : Loc} {e test : Expr} {es : List Expr} {yes no body ss : List Stmt} {n : Name}

theorem sexps_sound (h : ∀ s ∈ ss, s.Read) : Sexp.AllSound (sexps ss) := by
  rw [sexps_eq_map, Sexp.allSound_iff]
  intro x hx
  obtain ⟨s, hs, rfl⟩ := List.mem_map.1 hx
  exact (h s hs).1

theorem stmts?_sexps (h : ∀ s ∈ ss, s.Read) :
    Sexp.stmts? (sexps ss) = some (allMoved Loc.spot ss) := by
  induction ss with
  | nil => rfl
  | cons s ss ih =>
    obtain ⟨hs, hss⟩ := List.forall_mem_cons.1 h
    rw [sexps, Sexp.stmts?, hs.2, ih hss]
    rfl

/-- The heads of expressions are no heads of statements. -/
theorem stmt?_of_expr (e : Expr) : e.sexp.stmt? = e.sexp.expr?.map (.expr Mark.spot.loc) := by
  cases e with
  | lit l =>
    obtain ⟨m, l⟩ := l
    cases l <;> rfl
  | name id => rfl
  | unary m op e =>
    rw [Expr.sexp]
    exact Sexp.stmt?_of_head op.spelling_notMem_heads _
  | binary m l op r =>
    rw [Expr.sexp]
    exact Sexp.stmt?_of_head op.spelling_notMem_heads _
  | cond | list | index | member | call | methodCall =>
    rw [Expr.sexp]
    exact Sexp.stmt?_of_head (by decide) _

namespace Read

theorem expr (he : e.Read) : (Stmt.expr p e).Read := by
  refine ⟨by simpa only [sexp] using he.1, ?_⟩
  rw [sexp, stmt?_of_expr, he.2]
  simp only [moved]
  rfl

theorem assign (hes : ∀ e ∈ es, e.Read) (he : e.Read) : (Stmt.assign p es e).Read := by
  have hall : ∀ e' ∈ es ++ [e], e'.Read :=
    List.forall_mem_append.2 ⟨hes, List.forall_mem_singleton.2 he⟩
  constructor
  · simp only [sexp, Sexp.Sound, Sexp.AllSound, Expr.sexps_sound hall, and_true]
    decide
  · have hparts := Expr.exprs?_sexps hall
    rw [Expr.allMoved_eq_map, List.map_append, List.map_singleton] at hparts
    simp only [sexp, Sexp.stmt?, build?, hparts, moved, Option.pure_def, Option.bind_eq_bind,
      Option.bind_some, List.dropLast_concat, List.getLast?_concat]
    rfl

theorem ite (htest : test.Read) (hyes : ∀ s ∈ yes, s.Read) (hno : ∀ s ∈ no, s.Read) :
    (Stmt.ite p test yes no).Read := by
  constructor
  · simp only [sexp, Sexp.Sound, Sexp.AllSound, htest.1, sexps_sound hyes, sexps_sound hno,
      and_true]
    decide
  · simp only [sexp, Sexp.stmt?, Sexp.blocks?, Sexp.block?, build?, htest.2, stmts?_sexps hyes, stmts?_sexps hno, moved]
    rfl

theorem loop (htest : test.Read) (hbody : ∀ s ∈ body, s.Read) :
    (Stmt.loop p test body).Read := by
  constructor
  · simp only [sexp, Sexp.Sound, Sexp.AllSound, htest.1, sexps_sound hbody, and_true]
    decide
  · simp only [sexp, Sexp.stmt?, Sexp.blocks?, Sexp.block?, build?, htest.2, stmts?_sexps hbody, moved]
    rfl

theorem each (hname : ValidName n) (he : e.Read) (hbody : ∀ s ∈ body, s.Read) :
    (Stmt.each p ⟨⟨q, none⟩, n⟩ e body).Read := by
  constructor
  · have hword := hname.sound
    simp only [sexp, Sexp.Sound, Sexp.AllSound, he.1, sexps_sound hbody] at hword ⊢
    exact ⟨by decide, hword, trivial, ⟨by decide, trivial⟩, trivial⟩
  · simp only [sexp, Sexp.stmt?, Sexp.blocks?, Sexp.block?, build?, he.2, stmts?_sexps hbody, moved]
    rfl

theorem ret : (Stmt.ret p none).Read := by
  constructor
  · simp only [sexp, Sexp.Sound, Sexp.AllSound, and_true]
    decide
  · simp only [sexp, Sexp.stmt?, build?, moved]
    rfl

theorem retValue (he : e.Read) : (Stmt.ret p (some e)).Read := by
  constructor
  · simp only [sexp, Sexp.Sound, Sexp.AllSound, he.1, and_true]
    decide
  · simp only [sexp, Sexp.stmt?, build?, he.2, moved]
    rfl

end Read

end Stmt

namespace StmtPhrase

/-- The statements that a phrase is about. -/
def all : StmtPhrase → List Stmt
  | stmt s => s.toList
  | stmts ss | suite ss | block ss | alternative ss => ss

/-- Statements that tokens spell are read back. -/
theorem Derives.read {phrase : StmtPhrase} {w : List Token} (h : phrase.Derives w)
    (hw : ∀ t ∈ w, t.kind.Readable) : ∀ s ∈ phrase.all, s.Read := by
  induction h with
  | pass | noElse | nil => exact List.forall_mem_nil _
  | ret p q => exact List.forall_mem_singleton.2 .ret
  | retValue p q he =>
    simp only [List.forall_mem_cons, List.forall_mem_append] at hw
    exact List.forall_mem_singleton.2 (.retValue (he.read hw.2.1))
  | expr q he =>
    rw [← List.cons_append] at hw
    exact List.forall_mem_singleton.2 (.expr (he.read (List.forall_mem_append.1 hw).1))
  | assign q hes he =>
    rw [← List.cons_append] at hw
    obtain ⟨htargets, hrest⟩ := List.forall_mem_append.1 hw
    have hvalue := he.read (List.forall_mem_append.1 hrest).1
    exact List.forall_mem_singleton.2 (.assign (hes.read htargets) hvalue)
  | ite p hc _ _ ihyes ihno | elif_ p hc _ _ ihyes ihno =>
    simp only [List.forall_mem_cons, List.forall_mem_append] at hw
    exact List.forall_mem_singleton.2
      (.ite (hc.read hw.2.1) (ihyes hw.2.2.1) (ihno hw.2.2.2))
  | loop p hc _ ih =>
    simp only [List.forall_mem_cons, List.forall_mem_append] at hw
    exact List.forall_mem_singleton.2 (.loop (hc.read hw.2.1) (ih hw.2.2))
  | each p q r name he _ ih =>
    simp only [List.forall_mem_cons, List.forall_mem_append] at hw
    exact List.forall_mem_singleton.2 (.each hw.2.1 (he.read hw.2.2.2.1) (ih hw.2.2.2.2))
  | else_ p _ ih => exact ih (List.forall_mem_cons.1 hw).2
  | block p q r _ ih =>
    simp only [List.forall_mem_cons] at hw
    exact ih hw.2.2.2
  | suite p _ _ ihss ihs =>
    simp only [List.forall_mem_append] at hw
    exact List.forall_mem_append.2 ⟨ihss hw.1, ihs hw.2.1⟩
  | snoc _ _ ihss ihs =>
    obtain ⟨hss, hs⟩ := List.forall_mem_append.1 hw
    exact List.forall_mem_append.2 ⟨ihss hss, ihs hs⟩

end StmtPhrase

/-! ### Declarations -/

theorem TypeExpr.text_sound {a : TypeExpr} (h : ValidName a.className) : (word a.text).Sound := by
  induction a with
  | cls loc name => exact h.sound
  | list loc elem ih =>
    have ih := ih h
    rw [Sexp.Sound] at ih ⊢
    have hopen : (txt "[").all Sexp.isAtom = true := by decide
    have hclose : (txt "]").all Sexp.isAtom = true := by decide
    refine ⟨by simp [TypeExpr.text, txt], ?_⟩
    rw [TypeExpr.text, List.all_append, List.all_append, hopen, ih.2, hclose]
    rfl

theorem TypedVar.dump_sound {v : TypedVar} (hname : ValidName v.name.name)
    (htype : ValidName v.typeExpr.className) : (word v.dump).Sound := by
  have hname := hname.sound
  have htype := TypeExpr.text_sound htype
  rw [Sexp.Sound] at hname htype ⊢
  have hcolon : (txt ":").all Sexp.isAtom = true := by decide
  refine ⟨by simp [TypedVar.dump, txt], ?_⟩
  rw [TypedVar.dump, List.all_append, List.all_append, hname.2, hcolon, htype.2]
  rfl

/-- Annotations are read back. -/
theorem TypeExpr.ofText_text {a : TypeExpr} (h : ValidName a.className) :
    TypeExpr.ofText a.text = a.moved Loc.spot := by
  induction a with
  | cls loc name =>
    obtain ⟨c, cs, hname, hc, -⟩ := ValidName.spelled h
    have hne : c ≠ '['.toUInt8 := by
      rintro rfl
      exact absurd hc (by decide)
    obtain rfl : name = c :: cs := hname
    rw [TypeExpr.text, TypeExpr.ofText, if_neg hne]
    rfl
  | list loc elem ih =>
    have hlast : (elem.text ++ txt "]").dropLast = elem.text := List.dropLast_concat
    show TypeExpr.ofText ('['.toUInt8 :: (elem.text ++ txt "]")) = _
    rw [TypeExpr.ofText, if_pos rfl, hlast, ih h]
    rfl

theorem TypedVar.Derives.read {v : TypedVar} {w : List Token} (h : v.Derives w)
    (hw : ∀ t ∈ w, t.kind.Readable) (htype : ValidName v.typeExpr.className) :
    (word v.dump).Sound ∧ (word v.dump).typedVar? = some (v.moved Loc.spot) := by
  cases h with
  | @mk a w p q name type =>
    have hname : ValidName name := (List.forall_mem_cons.1 hw).1
    have hcolon : Byte.isNamePart ':'.toUInt8 = false := by decide
    refine ⟨TypedVar.dump_sound hname htype, ?_⟩
    have hsplit : TypedVar.dump ⟨⟨⟨p, none⟩, name⟩, a⟩ = name ++ ':'.toUInt8 :: a.text := by
      rw [TypedVar.dump, List.append_assoc]
      rfl
    have htake : (name ++ ':'.toUInt8 :: a.text).takeWhile Byte.isNamePart = name := by
      rw [List.takeWhile_append_of_pos hname.isNamePart, List.takeWhile_cons, hcolon]
      simp
    have hdrop : (name ++ ':'.toUInt8 :: a.text).dropWhile Byte.isNamePart =
        ':'.toUInt8 :: a.text := by
      rw [List.dropWhile_append_of_pos hname.isNamePart, List.dropWhile_cons, hcolon]
      simp
    rw [Sexp.typedVar?, hsplit, htake, hdrop, List.drop_one, List.tail_cons,
      TypeExpr.ofText_text htype]
    rfl

/-- A reader that takes each of some s-expressions to its own result takes all of them. -/
theorem mapM_map {α β : Type} {f : α → Sexp} {read : Sexp → Option β} {g : α → β} {xs : List α}
    (h : ∀ x ∈ xs, read (f x) = some (g x)) : (xs.map f).mapM read = some (xs.map g) := by
  induction xs with
  | nil => rfl
  | cons x xs ih =>
    obtain ⟨hx, hxs⟩ := List.forall_mem_cons.1 h
    rw [List.map_cons, List.mapM_cons, hx, ih hxs]
    rfl

theorem ParamsDerive.read {vs : List TypedVar} {w : List Token} (h : ParamsDerive vs w)
    (hw : ∀ t ∈ w, t.kind.Readable) (htypes : ∀ v ∈ vs, ValidName v.typeExpr.className) :
    ∀ v ∈ vs, (word v.dump).Sound ∧ (word v.dump).typedVar? = some (v.moved Loc.spot) := by
  induction h with
  | one first =>
    exact List.forall_mem_singleton.2 (first.read hw (htypes _ List.mem_cons_self))
  | more p _ next ih =>
    simp only [List.forall_mem_append, List.forall_mem_cons] at hw
    obtain ⟨hvs, hv⟩ := List.forall_mem_append.1 htypes
    exact List.forall_mem_append.2 ⟨ih hw.1 hvs,
      List.forall_mem_singleton.2 (next.read hw.2.2 (hv _ List.mem_cons_self))⟩

theorem ParametersDerive.read {vs : List TypedVar} {w : List Token} (h : ParametersDerive vs w)
    (hw : ∀ t ∈ w, t.kind.Readable) (htypes : ∀ v ∈ vs, ValidName v.typeExpr.className) :
    ∀ v ∈ vs, (word v.dump).Sound ∧ (word v.dump).typedVar? = some (v.moved Loc.spot) := by
  cases h with
  | empty p q => exact List.forall_mem_nil _
  | closed p q params =>
    simp only [List.forall_mem_append, List.forall_mem_cons] at hw
    exact params.read hw.2.1 htypes

/-- The s-expression is sound, and it is read as the declaration at one spot. -/
def LocalDecl.Read (d : LocalDecl) : Prop :=
  d.sexp.Sound ∧ d.sexp.decl? = some (d.moved Loc.spot)

namespace LocalDecl

variable {p q : Loc} {n : Name} {ds : List LocalDecl}

theorem sexps_sound (h : ∀ d ∈ ds, d.Read) : Sexp.AllSound (sexps ds) := by
  rw [sexps_eq_map, Sexp.allSound_iff]
  intro x hx
  obtain ⟨d, hd, rfl⟩ := List.mem_map.1 hx
  exact (h d hd).1

theorem decls?_sexps (h : ∀ d ∈ ds, d.Read) :
    Sexp.decls? (sexps ds) = some (allMoved Loc.spot ds) := by
  induction ds with
  | nil => rfl
  | cons d ds ih =>
    obtain ⟨hd, hds⟩ := List.forall_mem_cons.1 h
    rw [sexps, Sexp.decls?, hd.2, ih hds]
    rfl

namespace Read

theorem var {a : TypeExpr} {l : Literal} (hname : ValidName n) (htype : ValidName a.className)
    (hl : (Expr.lit l).Read) : (LocalDecl.var ⟨⟨⟨⟨p, none⟩, n⟩, a⟩, l⟩).Read := by
  obtain ⟨hsound, hread⟩ := hl
  simp only [Expr.sexp] at hsound hread
  constructor
  · have hword := hname.sound
    have hann := TypeExpr.text_sound htype
    simp only [sexp, VarDef.sexp, VarDef.name, Sexp.Sound, Sexp.AllSound] at hword hann hsound ⊢
    exact ⟨by decide, hword, hann, hsound, trivial⟩
  · simp only [sexp, VarDef.sexp, VarDef.name, Sexp.decl?, build?, Sexp.literal?, hread, Expr.moved,
      TypeExpr.ofText_text htype]
    rfl

theorem global (hname : ValidName n) : (LocalDecl.global p ⟨⟨q, none⟩, n⟩).Read := by
  constructor
  · have hword := hname.sound
    simp only [sexp, Sexp.Sound, Sexp.AllSound] at hword ⊢
    exact ⟨by decide, hword, trivial⟩
  · simp only [sexp, Sexp.decl?, build?]
    rfl

theorem nonlocal (hname : ValidName n) : (LocalDecl.nonlocal p ⟨⟨q, none⟩, n⟩).Read := by
  constructor
  · have hword := hname.sound
    simp only [sexp, Sexp.Sound, Sexp.AllSound] at hword ⊢
    exact ⟨by decide, hword, trivial⟩
  · simp only [sexp, Sexp.decl?, build?]
    rfl

theorem func {vs : List TypedVar} {ret? : Option TypeExpr} {body : List Stmt}
    (hname : ValidName n) (hparams : ∀ v ∈ vs, (word v.dump).Sound ∧
      (word v.dump).typedVar? = some (v.moved Loc.spot))
    (hret : ∀ a ∈ ret?, ValidName a.className) (hds : ∀ d ∈ ds, d.Read)
    (hbody : ∀ s ∈ body, s.Read) :
    (LocalDecl.func (.mk p ⟨⟨q, none⟩, n⟩ vs ret? ds body)).Read := by
  have hword := hname.sound
  have hsound : Sexp.AllSound (vs.map fun v => word v.dump) := by
    rw [Sexp.allSound_iff]
    intro x hx
    obtain ⟨v, hv, rfl⟩ := List.mem_map.1 hx
    exact (hparams v hv).1
  have hread : (vs.map fun v => word v.dump).mapM Sexp.typedVar? =
      some (vs.map (TypedVar.moved Loc.spot)) := mapM_map fun v hv => (hparams v hv).2
  cases ret? with
  | none =>
    constructor
    · simp only [sexp, FuncDef.sexp, List.append_nil, List.cons_append, List.nil_append,
        Sexp.Sound, Sexp.AllSound, hsound, sexps_sound hds, Stmt.sexps_sound hbody] at hword ⊢
      exact ⟨by decide, hword, trivial, ⟨by decide, trivial⟩, ⟨by decide, trivial⟩, trivial⟩
    · simp only [sexp, FuncDef.sexp, List.append_nil, List.cons_append, List.nil_append,
        Sexp.decl?_func, FuncDef.build?, Sexp.block?, hread, decls?_sexps hds,
        Stmt.stmts?_sexps hbody, moved, FuncDef.moved]
      rfl
  | some ret =>
    have hann := hret ret rfl
    have hannSound := TypeExpr.text_sound hann
    constructor
    · simp only [sexp, FuncDef.sexp, List.cons_append, List.nil_append, Sexp.Sound, Sexp.AllSound,
        hsound, sexps_sound hds, Stmt.sexps_sound hbody] at hword hannSound ⊢
      exact ⟨by decide, hword, trivial, by decide, hannSound, ⟨by decide, trivial⟩,
        ⟨by decide, trivial⟩, trivial⟩
    · simp only [sexp, FuncDef.sexp, List.cons_append, List.nil_append, Sexp.decl?_func_to,
        FuncDef.build?, Sexp.block?, hread, decls?_sexps hds, Stmt.stmts?_sexps hbody,
        Option.map_some, TypeExpr.ofText_text hann, moved, FuncDef.moved]
      rfl

end Read

end LocalDecl

theorem VarDef.Derives.read {d : VarDef} {w : List Token} (h : d.Derives w)
    (hw : ∀ t ∈ w, t.kind.Readable) (htype : ValidName d.var.typeExpr.className) :
    (LocalDecl.var d).Read := by
  cases h with
  | mk p q var value =>
    simp only [List.forall_mem_append, List.forall_mem_cons] at hw
    cases var with
    | mk r s name type =>
      exact .var (List.forall_mem_cons.1 hw.1).1 htype (.lit value hw.2.2.1)

section Annotated

variable {isClass : Name → Bool}

/-- The annotations in a declaration name classes. -/
def LocalDecl.Annotated (isClass : Name → Bool) : LocalDecl → Prop
  | var d => isClass d.var.typeExpr.className = true
  | func f => f.Closed isClass
  | _ => True

theorem FuncDef.Closed.annotated {f : FuncDef} (h : f.Closed isClass) :
    ∀ d ∈ f.decls, d.Annotated isClass := by
  intro d hd
  cases d with
  | var d =>
    have hmem : d.var.typeExpr ∈ f.annotations :=
      List.mem_append_right _ (List.mem_map.2 ⟨d, List.mem_filterMap.2 ⟨_, hd, rfl⟩, rfl⟩)
    exact h.annotations _ hmem
  | func g => exact h.inner hd
  | global | «nonlocal» => trivial

namespace FuncPhrase

/-- The declarations that a phrase is about. -/
def all : FuncPhrase → List LocalDecl
  | func f => [.func f]
  | decl d => [d]
  | decls ds => ds

/-- Declarations that tokens spell are read back if their annotations name classes. -/
theorem Derives.read (hnames : ∀ x, isClass x = true → ValidName x) {phrase : FuncPhrase}
    {w : List Token} (h : phrase.Derives w) (hw : ∀ t ∈ w, t.kind.Readable)
    (hclosed : ∀ d ∈ phrase.all, d.Annotated isClass) : ∀ d ∈ phrase.all, d.Read := by
  induction h with
  | nil => exact List.forall_mem_nil _
  | func p q r s u name hparams hret _ hbody ih =>
    have hclosed : FuncDef.Closed isClass _ := hclosed _ List.mem_cons_self
    simp only [List.forall_mem_cons, List.forall_mem_append] at hw
    have hann := hclosed.annotations
    refine List.forall_mem_singleton.2 (.func hw.2.1 (hparams.read hw.2.2.1 fun v hv => ?_)
      (fun a ha => ?_) (ih hw.2.2.2.2.2.2.2.1 hclosed.annotated)
      (hbody.read hw.2.2.2.2.2.2.2.2))
    · exact hnames _ (hann _ (List.mem_append_left _ (List.mem_append_left _
        (List.mem_map_of_mem hv))))
    · exact hnames _ (hann _ (List.mem_append_left _ (List.mem_append_right _
        (Option.mem_toList.2 ha))))
  | var hd =>
    have htype := hclosed _ List.mem_cons_self
    exact List.forall_mem_singleton.2 (hd.read hw (hnames _ htype))
  | «local» _ ih => exact ih hw hclosed
  | global p q r name =>
    simp only [List.forall_mem_cons] at hw
    exact List.forall_mem_singleton.2 (.global hw.2.1)
  | «nonlocal» p q r name =>
    simp only [List.forall_mem_cons] at hw
    exact List.forall_mem_singleton.2 (.nonlocal hw.2.1)
  | snoc _ _ ihds ihd =>
    obtain ⟨hw₁, hw₂⟩ := List.forall_mem_append.1 hw
    obtain ⟨hc₁, hc₂⟩ := List.forall_mem_append.1 hclosed
    exact List.forall_mem_append.2 ⟨ihds hw₁ hc₁, ihd hw₂ hc₂⟩

end FuncPhrase

/-! ### Classes and programs -/

def Member.Read (m : Member) : Prop :=
  m.sexp.Sound ∧ m.sexp.member? = some (m.moved Loc.spot)

theorem LocalDecl.Read.attr {d : VarDef} (h : (LocalDecl.var d).Read) : (Member.attr d).Read := by
  obtain ⟨hsound, hread⟩ := h
  simp only [LocalDecl.sexp, LocalDecl.moved] at hsound hread
  exact ⟨hsound, by rw [Member.sexp, Sexp.member?, hread]; rfl⟩

theorem LocalDecl.Read.method {f : FuncDef} (h : (LocalDecl.func f).Read) :
    (Member.method f).Read := by
  obtain ⟨hsound, hread⟩ := h
  simp only [LocalDecl.sexp, LocalDecl.moved] at hsound hread
  exact ⟨hsound, by rw [Member.sexp, Sexp.member?, hread]; rfl⟩

theorem MembersDerive.read (hnames : ∀ x, isClass x = true → ValidName x) {ms : List Member}
    {w : List Token} (h : MembersDerive ms w) (hw : ∀ t ∈ w, t.kind.Readable)
    (hclosed : ∀ m ∈ ms, m.Closed isClass) : ∀ m ∈ ms, m.Read := by
  induction h with
  | nil => exact List.forall_mem_nil _
  | pass p q _ ih => exact ih (List.forall_mem_append.1 hw).1 hclosed
  | attr _ hd ih =>
    obtain ⟨hw₁, hw₂⟩ := List.forall_mem_append.1 hw
    obtain ⟨hc₁, hc₂⟩ := List.forall_mem_append.1 hclosed
    have htype := hnames _ (hc₂ _ List.mem_cons_self)
    exact List.forall_mem_append.2 ⟨ih hw₁ hc₁,
      List.forall_mem_singleton.2 (hd.read hw₂ htype).attr⟩
  | method _ hf ih =>
    obtain ⟨hw₁, hw₂⟩ := List.forall_mem_append.1 hw
    obtain ⟨hc₁, hc₂⟩ := List.forall_mem_append.1 hclosed
    have hfunc := hf.read hnames hw₂ (List.forall_mem_singleton.2 (hc₂ _ List.mem_cons_self))
    exact List.forall_mem_append.2 ⟨ih hw₁ hc₁,
      List.forall_mem_singleton.2 (hfunc _ List.mem_cons_self).method⟩

/-- The annotations in a declaration name classes. -/
def TopDecl.Closed (isClass : Name → Bool) : TopDecl → Prop
  | var d => isClass d.var.typeExpr.className = true
  | func f => f.Closed isClass
  | cls c => ∀ m ∈ c.members, m.Closed isClass

def TopDecl.Read (d : TopDecl) : Prop :=
  d.sexp.Sound ∧ d.sexp.topDecl? = some (d.moved Loc.spot)

theorem LocalDecl.Read.topVar {d : VarDef} (h : (LocalDecl.var d).Read) :
    (TopDecl.var d).Read := by
  obtain ⟨hsound, hread⟩ := h
  simp only [LocalDecl.sexp, LocalDecl.moved] at hsound hread
  refine ⟨hsound, ?_⟩
  -- the value is no group, so the node is not taken for a class
  have hnode : d.sexp.topDecl? = d.sexp.decl?.bind LocalDecl.topDecl? := by
    obtain ⟨v, m, l⟩ := d
    cases l <;> rfl
  rw [TopDecl.sexp, hnode, hread]
  rfl

theorem LocalDecl.Read.topFunc {f : FuncDef} (h : (LocalDecl.func f).Read) :
    (TopDecl.func f).Read := by
  obtain ⟨hsound, hread⟩ := h
  simp only [LocalDecl.sexp, LocalDecl.moved] at hsound hread
  refine ⟨hsound, ?_⟩
  have hnode : f.sexp.topDecl? = f.sexp.decl?.bind LocalDecl.topDecl? := by
    obtain ⟨loc, id, params, ret?, decls, body⟩ := f
    cases ret? <;> simp only [FuncDef.sexp] <;> rfl
  rw [TopDecl.sexp, hnode, hread]
  rfl

theorem ClassDef.Derives.read (hnames : ∀ x, isClass x = true → ValidName x) {c : ClassDef}
    {w : List Token} (h : c.Derives w) (hw : ∀ t ∈ w, t.kind.Readable)
    (hclosed : ∀ m ∈ c.members, m.Closed isClass) : (TopDecl.cls c).Read := by
  cases h with
  | @mk ms w p q r p₁ p₂ p₃ p₄ p₅ p₆ name super members =>
    simp only [List.forall_mem_cons, List.forall_mem_append] at hw
    have hms := members.read hnames hw.2.2.2.2.2.2.2.2.1 hclosed
    have hname : ValidName name := hw.2.1
    have hsuper : ValidName super := hw.2.2.2.1
    have hsound : Sexp.AllSound (ms.map Member.sexp) := by
      rw [Sexp.allSound_iff]
      intro x hx
      obtain ⟨m, hm, rfl⟩ := List.mem_map.1 hx
      exact (hms m hm).1
    have hread : (ms.map Member.sexp).mapM Sexp.member? = some (ms.map (Member.moved Loc.spot)) :=
      mapM_map fun m hm => (hms m hm).2
    constructor
    · have hname := hname.sound
      have hsuper := hsuper.sound
      simp only [TopDecl.sexp, ClassDef.sexp, ClassDef.name, Sexp.Sound, Sexp.AllSound,
        hsound] at hname hsuper ⊢
      exact ⟨by decide, hname, hsuper, ⟨by decide, trivial⟩, trivial⟩
    · simp only [TopDecl.sexp, ClassDef.sexp, ClassDef.name, Sexp.topDecl?, hread]
      rfl

theorem TopDeclsDerive.read (hnames : ∀ x, isClass x = true → ValidName x) {ds : List TopDecl}
    {w : List Token} (h : TopDeclsDerive ds w) (hw : ∀ t ∈ w, t.kind.Readable)
    (hclosed : ∀ d ∈ ds, d.Closed isClass) : ∀ d ∈ ds, d.Read := by
  induction h with
  | nil => exact List.forall_mem_nil _
  | var _ hd ih =>
    obtain ⟨hw₁, hw₂⟩ := List.forall_mem_append.1 hw
    obtain ⟨hc₁, hc₂⟩ := List.forall_mem_append.1 hclosed
    have htype := hnames _ (hc₂ _ List.mem_cons_self)
    exact List.forall_mem_append.2 ⟨ih hw₁ hc₁,
      List.forall_mem_singleton.2 (hd.read hw₂ htype).topVar⟩
  | func _ hf ih =>
    obtain ⟨hw₁, hw₂⟩ := List.forall_mem_append.1 hw
    obtain ⟨hc₁, hc₂⟩ := List.forall_mem_append.1 hclosed
    have hfunc := hf.read hnames hw₂ (List.forall_mem_singleton.2 (hc₂ _ List.mem_cons_self))
    exact List.forall_mem_append.2 ⟨ih hw₁ hc₁,
      List.forall_mem_singleton.2 (hfunc _ List.mem_cons_self).topFunc⟩
  | cls _ hc ih =>
    obtain ⟨hw₁, hw₂⟩ := List.forall_mem_append.1 hw
    obtain ⟨hc₁, hc₂⟩ := List.forall_mem_append.1 hclosed
    exact List.forall_mem_append.2 ⟨ih hw₁ hc₁,
      List.forall_mem_singleton.2 (hc.read hnames hw₂ (hc₂ _ List.mem_cons_self))⟩

/-- A program that tokens spell is read back if its annotations name classes. -/
theorem Program.Derives.read (hnames : ∀ x, isClass x = true → ValidName x) {p : Program}
    {w : List Token} (h : p.Derives w) (hw : ∀ t ∈ w, t.kind.Readable)
    (hclosed : ∀ d ∈ p.decls, d.Closed isClass) :
    p.sexp.Sound ∧ p.sexp.program? = some (p.moved Loc.spot) := by
  cases h with
  | @mk ds ss w w' q decls body =>
    simp only [List.forall_mem_append] at hw
    have hds := decls.read hnames hw.1 hclosed
    have hss : ∀ s ∈ ss, s.Read := body.read hw.2.1
    have hsound : Sexp.AllSound (ds.map TopDecl.sexp) := by
      rw [Sexp.allSound_iff]
      intro x hx
      obtain ⟨d, hd, rfl⟩ := List.mem_map.1 hx
      exact (hds d hd).1
    have hread : (ds.map TopDecl.sexp).mapM Sexp.topDecl? =
        some (ds.map (TopDecl.moved Loc.spot)) := mapM_map fun d hd => (hds d hd).2
    constructor
    · simp only [Program.sexp, Sexp.Sound, Sexp.AllSound, hsound, Stmt.sexps_sound hss, and_true]
      decide
    · simp only [Program.sexp, Sexp.program?, hread, Stmt.stmts?_sexps hss,
        Stmt.allMoved_eq_map]
      rfl

end Annotated

/-! ### Programs without a report -/

theorem Scope.ValidClasses.bindsClass {g : Scope} (h : g.ValidClasses) {x : Name}
    (hx : g.entries.bindsClass x = true) : ValidName x := by
  obtain ⟨c, hc⟩ := Option.isSome_iff_exists.1 hx
  obtain ⟨e, he, hclass⟩ := Option.bind_eq_some_iff.1 hc
  cases e with
  | cls c' => exact h x c' (Bindings.mem_of_get? he)
  | value t => cases hclass
  | func ty => cases hclass

theorem Program.read_of_parse {source : Bytes} {globals : Scope} {p : Program}
    (hparse : parse source = .ok p) (hdeclare : p.declare = ⟨globals, []⟩) :
    p.sexp.Sound ∧ p.sexp.program? = some (p.moved Loc.spot) := by
  have hvalid := parse_valid hparse
  obtain ⟨ts, htokens, hderives⟩ := parse_iff.1 hparse
  obtain ⟨hvars, hmembers, hfuncs⟩ := Program.declare_closed hvalid hdeclare
  have hclasses := Program.declare_validClasses hvalid
  rw [hdeclare] at hclasses
  refine hderives.read (fun x => hclasses.bindsClass) (Lexer.reads_readable.tokenize htokens)
    fun d hd => ?_
  cases d with
  | var d => exact hvars d hd
  | func f => exact hfuncs f hd
  | cls c => exact hmembers c hd

/-- Two programs without a report have the same dump exactly if they are the same tree up to the
places in it. -/
theorem dump_eq_iff {source source' : Bytes} {globals globals' : Scope} {p q : Program}
    (hp : parse source = .ok p) (hq : parse source' = .ok q)
    (hp' : p.declare = ⟨globals, []⟩) (hq' : q.declare = ⟨globals', []⟩) :
    p.dump = q.dump ↔ p.moved Loc.spot = q.moved Loc.spot := by
  constructor
  · intro hdump
    obtain ⟨hpsound, hpread⟩ := Program.read_of_parse hp hp'
    obtain ⟨hqsound, hqread⟩ := Program.read_of_parse hq hq'
    have hsexp : p.sexp = q.sexp := by
      refine Sexp.text_injective hpsound hqsound ?_
      rw [p.text_sexp, q.text_sexp, hdump]
    rw [hsexp, hqread] at hpread
    exact (Option.some.inj hpread).symm
  · intro hmoved
    rw [← p.dump_moved Loc.spot, hmoved, q.dump_moved Loc.spot]

/-- A type in quotes, a string, parentheses and a comment. -/
def spacious : Bytes :=
  txt "# a comment\nx :\"str\" = \"a \"\n\nprint( ( 1 - ( -2 ) ) )\n"

/-- The same program in fewer bytes. -/
def compact : Bytes := txt "x:str=\"a \"\nprint(1- -2)"

theorem spacious_dump : ∃ globals globals' p q, parse spacious = .ok p ∧ parse compact = .ok q ∧
    p.declare = ⟨globals, []⟩ ∧ q.declare = ⟨globals', []⟩ ∧ p.dump = q.dump ∧
    p.moved Loc.spot = q.moved Loc.spot := by
  have hrun (source : Bytes) (hsource : source ∈ [spacious, compact]) :
      (parse source).toOption.any (fun p => p.declare.diagnostics = [] ∧
        p.dump = txt "(program (decls (var x str \"a \")) (stmts (call print (- 1 (- 2)))))") =
      true := by
    rw [List.mem_cons, List.mem_singleton] at hsource
    rcases hsource with rfl | rfl <;> decide +kernel
  obtain ⟨p, hparse, hprop⟩ := ok_of_any (hrun spacious List.mem_cons_self)
  obtain ⟨q, hparse', hprop'⟩ := ok_of_any (hrun compact (List.mem_cons_of_mem _ List.mem_cons_self))
  obtain ⟨hreports, hdump⟩ := of_decide_eq_true hprop
  obtain ⟨hreports', hdump'⟩ := of_decide_eq_true hprop'
  have hdeclare : p.declare = ⟨p.declare.value, []⟩ := by rw [← hreports]
  have hdeclare' : q.declare = ⟨q.declare.value, []⟩ := by rw [← hreports']
  have hsame : p.dump = q.dump := hdump.trans hdump'.symm
  exact ⟨_, _, p, q, hparse, hparse', hdeclare, hdeclare', hsame,
    (dump_eq_iff hparse hparse' hdeclare hdeclare').1 hsame⟩

end ChocoRv
