import ChocoRv.Analysis.Typing
import ChocoRv.Proofs.Erasure
import Mathlib.Data.List.Forall2

/-!
# Typed trees

`Typed` says of a tree with filled slots that every type in it is the one that the rules give, and
that no rule is broken. Checking a tree without a report returns a typed tree that differs from the
given one in its slots only.
-/

namespace ChocoRv

namespace Typing

variable {α β : Type}

/-- The computation ends with the value and reports nothing. -/
def Gives (x : Typing α) (a : α) : Prop := x.run = ⟨.ok a, []⟩

@[simp] theorem gives_pure {a b : α} : Gives (pure a) b ↔ a = b := by
  simp [Gives, ExceptT.run, pure, ExceptT.pure, ExceptT.mk, Reporting.pure]

@[simp] theorem gives_bind {x : Typing α} {f : α → Typing β} {b : β} :
    Gives (x >>= f) b ↔ ∃ a, Gives x a ∧ Gives (f a) b := by
  obtain ⟨r, ds⟩ := x
  cases r with
  | error e =>
    simp [Gives, ExceptT.run, bind, ExceptT.bind, ExceptT.mk, ExceptT.bindCont, Reporting.bind,
      pure, Reporting.pure]
  | ok a =>
    rcases hf : f a with ⟨r', ds'⟩
    simp [Gives, ExceptT.run, bind, ExceptT.bind, ExceptT.mk, ExceptT.bindCont, Reporting.bind, hf]
    constructor
    · rintro ⟨rfl, rfl, rfl⟩; exact ⟨rfl, rfl, rfl⟩
    · rintro ⟨rfl, rfl, rfl⟩; exact ⟨rfl, rfl, rfl⟩

@[simp] theorem not_gives_throw {e : Fault} {a : α} : ¬ Gives (throw e : Typing α) a := by
  simp [Gives, ExceptT.run, throw, throwThe, MonadExceptOf.throw, ExceptT.mk, pure,
    Reporting.pure]

@[simp] theorem not_gives_report {loc : Loc} {p : Problem} {u : Unit} :
    ¬ Gives (report loc p) u := by
  simp [Gives, report, Reporting.report, ExceptT.run, liftM, monadLift, MonadLift.monadLift,
    ExceptT.lift, ExceptT.mk, Functor.map, Reporting.bind]

@[simp] theorem gives_reportUnless {ok : Bool} {loc : Loc} {p : Problem} {u : Unit} :
    Gives (reportUnless ok loc p) u ↔ ok = true := by
  unfold reportUnless
  split
  · simp_all
  · simp_all

@[simp] theorem gives_write {m m' : Mark} {e : Entry} :
    Gives (write m e) m' ↔ m.entry? = none ∧ m' = { m with entry? := some e } := by
  unfold write Mark.write
  cases m.entry? with
  | none => simp [eq_comm]
  | some first => simp

@[simp] theorem gives_writeIdent {id id' : Ident} {e : Entry} :
    Gives (writeIdent id e) id' ↔
      id.mark.entry? = none ∧ id' = { id with mark := { id.mark with entry? := some e } } := by
  simp only [writeIdent, gives_bind, gives_write, gives_pure]
  constructor
  · rintro ⟨m, ⟨h, rfl⟩, rfl⟩; exact ⟨h, rfl⟩
  · rintro ⟨h, rfl⟩; exact ⟨_, ⟨h, rfl⟩, rfl⟩

/-! ### The rules -/

/-- The type of the operand and of the result of a unary operator. -/
def unaryType : UnOp → Ty
  | .neg => .int
  | .not => .bool

/-- The type of a list display with elements of the types `ts`. -/
def displayType (h : Hierarchy) (ts : List Ty) : Ty :=
  match ts.foldl (fun a t => h.join? a (some t)) none with
  | none => .emptyList
  | some elem => .list elem

/-- The expressions have the types of the list, in order. -/
def HaveTypes (es : List Expr) (ts : List Ty) : Prop := es.map Expr.type? = ts.map some

/-- Each argument may stand for its parameter. -/
def Fit (h : Hierarchy) (params : List Ty) (args : List Expr) : Prop :=
  List.Forall₂ (fun p e => ∃ t, e.type? = some t ∧ h.isCompatible p t = true) params args

end Typing

open Typing

mutual

def Expr.Typed (c : Context) : Expr → Prop
  | .lit l => l.mark.type? = some (litType l.value)
  | .name id => ∃ t, id.mark.type? = some t ∧ c.env.get? id.name = some (.value t)
  | .unary m op e =>
    e.Typed c ∧ e.type? = some (unaryType op) ∧ m.type? = some (unaryType op)
  | .binary m l op r =>
    l.Typed c ∧ r.Typed c ∧ ∃ a b t, l.type? = some a ∧ r.type? = some b ∧
      binaryType c.hierarchy op a b = (t, true) ∧ m.type? = some t
  | .cond m test yes no =>
    test.Typed c ∧ test.type? = some .bool ∧ yes.Typed c ∧ no.Typed c ∧
      ∃ a b, yes.type? = some a ∧ no.type? = some b ∧
        m.type? = some (c.hierarchy.commonAncestor a b)
  | .list m elems =>
    Expr.AllTyped c elems ∧
      ∃ ts, HaveTypes elems ts ∧ m.type? = some (displayType c.hierarchy ts)
  | .index m seq i =>
    seq.Typed c ∧ i.Typed c ∧ i.type? = some .int ∧
      ∃ s t, seq.type? = some s ∧ elemType? s = some t ∧ m.type? = some t
  | .member m object id =>
    object.Typed c ∧ ∃ o cls t, object.type? = some o ∧ c.classOf? o = some cls ∧
      c.member? cls id.name = some (.value t) ∧ m.type? = some t
  | .call m id args =>
    Expr.AllTyped c args ∧ ∃ entry params result,
      Gives (callee c id.name) (.func entry params result) ∧ Fit c.hierarchy params args ∧
        m.type? = some result
  | .methodCall m _ object id args =>
    object.Typed c ∧ Expr.AllTyped c args ∧ ∃ o f, object.type? = some o ∧
      method? c o id.name = some f ∧ Fit c.hierarchy f.params.tail args ∧ m.type? = some f.ret

def Expr.AllTyped (c : Context) : List Expr → Prop
  | [] => True
  | e :: es => e.Typed c ∧ Expr.AllTyped c es

end

theorem Expr.allTyped_iff {c : Context} {es : List Expr} :
    Expr.AllTyped c es ↔ ∀ e ∈ es, e.Typed c := by
  induction es with
  | nil => simp [Expr.AllTyped]
  | cons e es ih => simp [Expr.AllTyped, ih]

theorem Expr.Typed.hasType {c : Context} {e : Expr} (h : e.Typed c) : ∃ t, e.type? = some t := by
  cases e with
  | lit l =>
    simp only [Expr.Typed] at h
    exact ⟨_, h⟩
  | name id =>
    simp only [Expr.Typed] at h
    obtain ⟨t, ht, -⟩ := h
    exact ⟨t, ht⟩
  | unary m op e =>
    simp only [Expr.Typed] at h
    exact ⟨_, h.2.2⟩
  | binary m l op r =>
    simp only [Expr.Typed] at h
    obtain ⟨-, -, a, b, t, -, -, -, ht⟩ := h
    exact ⟨t, ht⟩
  | cond m test yes no =>
    simp only [Expr.Typed] at h
    obtain ⟨-, -, -, -, a, b, -, -, ht⟩ := h
    exact ⟨_, ht⟩
  | list m elems =>
    simp only [Expr.Typed] at h
    obtain ⟨-, ts, -, ht⟩ := h
    exact ⟨_, ht⟩
  | index m seq i =>
    simp only [Expr.Typed] at h
    obtain ⟨-, -, -, s, t, -, -, ht⟩ := h
    exact ⟨t, ht⟩
  | member m object id =>
    simp only [Expr.Typed] at h
    obtain ⟨-, o, cls, t, -, -, -, ht⟩ := h
    exact ⟨t, ht⟩
  | call m id args =>
    simp only [Expr.Typed] at h
    obtain ⟨-, entry, params, result, -, -, ht⟩ := h
    exact ⟨result, ht⟩
  | methodCall m method object id args =>
    simp only [Expr.Typed] at h
    obtain ⟨-, -, o, f, -, -, -, ht⟩ := h
    exact ⟨_, ht⟩

namespace Typing

/-- A target of an assignment of a value of type `t`. -/
def TargetTyped (c : Context) (t : Ty) (e : Expr) : Prop :=
  e.Typed c ∧ isStrElement e = false ∧
    ∃ place, e.type? = some place ∧ c.hierarchy.isCompatible place t = true

/-- A return of a value of type `t`. -/
def ReturnTyped (c : Context) (t : Ty) : Prop :=
  c.top = false ∧ ∀ expected, c.ret? = some expected → c.hierarchy.isCompatible expected t = true

end Typing

mutual

def Stmt.Typed (c : Context) : Stmt → Prop
  | .expr _ e => e.Typed c
  | .assign _ targets value =>
    value.Typed c ∧ ∃ t, value.type? = some t ∧ (∀ e ∈ targets, TargetTyped c t e) ∧
      ¬ (1 < targets.length ∧ t = .list .noneType)
  | .ite _ test yes no =>
    test.Typed c ∧ test.type? = some .bool ∧ Stmt.AllTyped c yes ∧ Stmt.AllTyped c no
  | .loop _ test body => test.Typed c ∧ test.type? = some .bool ∧ Stmt.AllTyped c body
  | .each _ id iterable body =>
    iterable.Typed c ∧ Stmt.AllTyped c body ∧ ∃ t elem var, iterable.type? = some t ∧
      elemType? t = some elem ∧ id.mark.type? = some var ∧
      c.env.get? id.name = some (.value var) ∧ c.hierarchy.isCompatible var elem = true
  | .ret _ none => ReturnTyped c .noneType
  | .ret _ (some e) => e.Typed c ∧ ∃ t, e.type? = some t ∧ ReturnTyped c t

def Stmt.AllTyped (c : Context) : List Stmt → Prop
  | [] => True
  | s :: ss => s.Typed c ∧ Stmt.AllTyped c ss

end

/-- The initial value fits the type that the table gives to the variable. -/
def VarDef.Typed (h : Hierarchy) (table : Bindings Entry) (d : VarDef) : Prop :=
  d.value.mark.type? = some (litType d.value.value) ∧
    ∀ t, table.value? d.name = some t → h.isCompatible t (litType d.value.value) = true

mutual

/-- The declarations and the body of a function are typed in its scope. -/
def FuncDef.Typed (c : Context) (scope : Scope) : FuncDef → Prop
  | .mk _ _ _ _ decls body =>
    LocalDecl.AllTyped (c.enter scope) scope decls ∧ Stmt.AllTyped (c.enter scope) body

def LocalDecl.AllTyped (c : Context) (scope : Scope) : List LocalDecl → Prop
  | [] => True
  | .var d :: ds => d.Typed c.hierarchy scope.entries ∧ LocalDecl.AllTyped c scope ds
  | .func f :: ds =>
    (∀ inner, scope.child? f.name = some inner → f.Typed c inner) ∧ LocalDecl.AllTyped c scope ds
  | .global _ _ :: ds => LocalDecl.AllTyped c scope ds
  | .nonlocal _ _ :: ds => LocalDecl.AllTyped c scope ds

end

theorem LocalDecl.AllTyped.var {c : Context} {scope : Scope} {ds : List LocalDecl}
    (h : LocalDecl.AllTyped c scope ds) {d : VarDef} (hd : .var d ∈ ds) :
    d.Typed c.hierarchy scope.entries := by
  induction ds with
  | nil => simp at hd
  | cons d' ds ih =>
    rcases List.mem_cons.1 hd with rfl | hd'
    · simp only [LocalDecl.AllTyped] at h; exact h.1
    · cases d' <;> simp only [LocalDecl.AllTyped] at h
      exacts [ih h.2 hd', ih h hd', ih h hd', ih h.2 hd']

theorem LocalDecl.AllTyped.func {c : Context} {scope : Scope} {ds : List LocalDecl}
    (h : LocalDecl.AllTyped c scope ds) {f : FuncDef} (hf : .func f ∈ ds) {inner : Scope}
    (hinner : scope.child? f.name = some inner) : f.Typed c inner := by
  induction ds with
  | nil => simp at hf
  | cons d' ds ih =>
    rcases List.mem_cons.1 hf with rfl | hf'
    · simp only [LocalDecl.AllTyped] at h; exact h.1 inner hinner
    · cases d' <;> simp only [LocalDecl.AllTyped] at h
      exacts [ih h.2 hf', ih h hf', ih h hf', ih h.2 hf']

def Member.Typed (c : Context) (scope : Scope) : Member → Prop
  | .attr d => d.Typed c.hierarchy scope.entries
  | .method f => ∀ inner, scope.child? f.name = some inner → f.Typed c inner

def TopDecl.Typed (c : Context) : TopDecl → Prop
  | .var d => d.Typed c.hierarchy c.globals.entries
  | .func f => ∀ inner, c.globals.child? f.name = some inner → f.Typed c inner
  | .cls d => ∀ scope, c.globals.child? d.name = some scope → ∀ m ∈ d.members, m.Typed c scope

/-- All types in a program with the given global scope are in order. -/
def Program.Typed (globals : Scope) (p : Program) : Prop :=
  (∀ d ∈ p.decls, d.Typed (Context.ofGlobals globals)) ∧
    Stmt.AllTyped (Context.ofGlobals globals) p.body

/-! ### Soundness of checking -/

theorem FuncDef.name_eq_of_erase {f g : FuncDef} (h : f.erase = g.erase) : f.name = g.name := by
  rw [FuncDef.name, ← FuncDef.ident_erase f, h, FuncDef.ident_erase g, FuncDef.name]

/-- Maps of two lists agree if they agree on related elements. -/
theorem map_eq_map_of_forall₂ {α β γ : Type} {f : α → γ} {g : β → γ} {xs : List α}
    {ys : List β} (h : List.Forall₂ (fun x y => g y = f x) xs ys) : ys.map g = xs.map f := by
  induction h with
  | nil => rfl
  | cons h _ ih => rw [List.map_cons, List.map_cons, h, ih]

theorem forall_right_of_forall₂ {α β : Type} {P : β → Prop} {xs : List α} {ys : List β}
    (h : List.Forall₂ (fun _ y => P y) xs ys) : ∀ y ∈ ys, P y := by
  induction h with
  | nil => simp
  | cons h _ ih => exact List.forall_mem_cons.2 ⟨h, ih⟩

namespace Typing

theorem type?_mk {loc : Loc} {t : Ty} : Mark.type? ⟨loc, some (.value t)⟩ = some t := rfl

theorem Gives.literal {l l' : Literal} (h : Gives (checkLiteral l) l') :
    l'.erase = l.erase ∧ l'.value = l.value ∧ l'.mark.type? = some (litType l'.value) := by
  simp only [checkLiteral, gives_bind, gives_write, gives_pure] at h
  obtain ⟨m, ⟨-, rfl⟩, rfl⟩ := h
  exact ⟨rfl, rfl, rfl⟩

theorem Gives.name {c : Context} {id id' : Ident} {t : Ty} (h : Gives (checkName c id) (id', t)) :
    id'.erase = id.erase ∧ id'.mark.type? = some t ∧ c.env.get? id'.name = some (.value t) := by
  unfold checkName at h
  split at h
  · simp only [gives_bind, gives_pure, gives_writeIdent, Prod.mk.injEq] at h
    obtain ⟨_, rfl, id'', ⟨-, rfl⟩, rfl, rfl⟩ := h
    exact ⟨rfl, rfl, ‹_›⟩
  · simp at h

theorem Gives.args {h : Hierarchy} {params : List Ty} {es : List Expr} :
    ∀ {i : Nat} {args : List (Loc × Ty)}, Gives (reportArgs h i params args) () →
      params.length = args.length → HaveTypes es (args.map Prod.snd) → Fit h params es := by
  induction params generalizing es with
  | nil =>
    intro i args _ hlen hes
    obtain rfl : args = [] := List.eq_nil_of_length_eq_zero hlen.symm
    obtain rfl : es = [] := by simpa [HaveTypes] using hes
    exact .nil
  | cons p ps ih =>
    intro i args hrep hlen hes
    obtain ⟨⟨loc, t⟩, args, rfl⟩ := List.exists_cons_of_length_pos (l := args)
      (by simp at hlen; omega)
    obtain ⟨e, es, rfl⟩ := List.exists_cons_of_length_pos (l := es) (by
      have := congrArg List.length hes; simp at this; omega)
    simp only [HaveTypes, List.map_cons, List.cons.injEq] at hes
    simp only [reportArgs, gives_bind, gives_reportUnless] at hrep
    obtain ⟨_, hcompat, hrest⟩ := hrep
    exact .cons ⟨t, hes.1, hcompat⟩ (ih hrest (by simpa using hlen) hes.2)

theorem Gives.matchArgs {h : Hierarchy} {loc : Loc} {params : List Ty} {es : List Expr}
    {args : List (Loc × Ty)} {u : Unit} (hm : Gives (matchArgs h loc params args) u)
    (hes : HaveTypes es (args.map Prod.snd)) : Fit h params es := by
  unfold Typing.matchArgs at hm
  split at hm
  · exact hm.args ‹_› hes
  · simp at hm

/-- What checking an expression gives: a typed expression of the same shape. -/
structure Checked (c : Context) (e e' : Expr) (t : Ty) : Prop where
  erase : e'.erase = e.erase
  typed : e'.Typed c
  type : e'.type? = some t

/-- What checking expressions gives. -/
structure AllChecked (c : Context) (es es' : List Expr) (ts : List (Loc × Ty)) : Prop where
  erase : Expr.eraseAll es' = Expr.eraseAll es
  typed : Expr.AllTyped c es'
  types : HaveTypes es' (ts.map Prod.snd)

end Typing

mutual

theorem Expr.check_spec {c : Context} : ∀ {e e' : Expr} {t : Ty},
    Gives (e.check c) (e', t) → Checked c e e' t
  | .lit l, e', t, h => by
    simp only [Expr.check, gives_bind, gives_pure, Prod.mk.injEq] at h
    obtain ⟨l', hl, rfl, rfl⟩ := h
    obtain ⟨herase, hvalue, htype⟩ := hl.literal
    refine ⟨by simp only [Expr.erase, herase], by simpa only [Expr.Typed] using htype, ?_⟩
    rw [← hvalue]
    exact htype
  | .name id, e', t, h => by
    simp only [Expr.check, gives_bind, gives_pure] at h
    obtain ⟨⟨id', t'⟩, hid, h⟩ := h
    cases h
    obtain ⟨herase, htype, henv⟩ := hid.name
    refine ⟨by simp only [Expr.erase, herase], ?_, htype⟩
    simpa only [Expr.Typed] using ⟨_, htype, henv⟩
  | .unary m op e, e', t, h => by
    simp only [Expr.check, gives_bind, gives_reportUnless, gives_write, gives_pure] at h
    obtain ⟨⟨e₁, t₁⟩, he, _, hop, m', ⟨-, rfl⟩, h⟩ := h
    cases h
    obtain ⟨herase, htyped, htype⟩ := Expr.check_spec he
    refine ⟨by simp only [Expr.erase, herase, Mark.erase], ?_, rfl⟩
    have ht₁ : t₁ = unaryType op := by cases op <;> simpa [unaryType] using hop
    simp only [Expr.Typed]
    refine ⟨htyped, by rw [htype, ht₁], ?_⟩
    cases op <;> rfl
  | .binary m l op r, e', t, h => by
    simp only [Expr.check, gives_bind, gives_reportUnless, gives_write, gives_pure] at h
    obtain ⟨⟨l', a⟩, hl, ⟨r', b⟩, hr, _, hok, m', ⟨-, rfl⟩, h⟩ := h
    cases h
    obtain ⟨hle, hlt, hla⟩ := Expr.check_spec hl
    obtain ⟨hre, hrt, hrb⟩ := Expr.check_spec hr
    refine ⟨by simp only [Expr.erase, hle, hre, Mark.erase], ?_, rfl⟩
    simp only [Expr.Typed]
    exact ⟨hlt, hrt, a, b, _, hla, hrb, Prod.ext rfl hok, rfl⟩
  | .cond m test yes no, e', t, h => by
    simp only [Expr.check, gives_bind, gives_reportUnless, gives_write, gives_pure] at h
    obtain ⟨⟨test', b⟩, htest, _, hb, ⟨yes', t₁⟩, hyes, ⟨no', t₂⟩, hno, m', ⟨-, rfl⟩, h⟩ := h
    cases h
    obtain ⟨h₁, h₂, h₃⟩ := Expr.check_spec htest
    obtain ⟨h₄, h₅, h₆⟩ := Expr.check_spec hyes
    obtain ⟨h₇, h₈, h₉⟩ := Expr.check_spec hno
    refine ⟨by simp only [Expr.erase, h₁, h₄, h₇, Mark.erase], ?_, rfl⟩
    obtain rfl : b = .bool := by simpa using hb
    simp only [Expr.Typed]
    exact ⟨h₂, h₃, h₅, h₈, t₁, t₂, h₆, h₉, rfl⟩
  | .list m elems, e', t, h => by
    simp only [Expr.check, gives_bind, gives_write, gives_pure] at h
    obtain ⟨⟨elems', ts⟩, helems, m', ⟨-, rfl⟩, h⟩ := h
    cases h
    obtain ⟨h₁, h₂, h₃⟩ := Expr.checkAll_spec helems
    refine ⟨by simp only [Expr.erase, h₁, Mark.erase], ?_, rfl⟩
    simp only [Expr.Typed]
    refine ⟨h₂, ts.map Prod.snd, h₃, ?_⟩
    rw [displayType, List.foldl_map]
    exact type?_mk
  | .index m seq i, e', t, h => by
    simp only [Expr.check, gives_bind] at h
    obtain ⟨⟨seq', s⟩, hseq, ⟨i', it⟩, hi, h⟩ := h
    obtain ⟨h₁, h₂, h₃⟩ := Expr.check_spec hseq
    obtain ⟨h₄, h₅, h₆⟩ := Expr.check_spec hi
    dsimp only at h
    split at h
    · rename_i t' helem
      simp only [gives_bind, gives_reportUnless, gives_write, gives_pure] at h
      obtain ⟨_, hint, _, rfl, m', ⟨-, rfl⟩, h⟩ := h
      cases h
      obtain rfl : it = .int := by simpa using hint
      refine ⟨by simp only [Expr.erase, h₁, h₄, Mark.erase], ?_, rfl⟩
      simp only [Expr.Typed]
      exact ⟨h₂, h₅, h₆, s, _, h₃, helem, rfl⟩
    · simp at h
  | .member m object id, e', t, h => by
    simp only [Expr.check, gives_bind] at h
    obtain ⟨⟨object', o⟩, hobj, h⟩ := h
    obtain ⟨h₁, h₂, h₃⟩ := Expr.check_spec hobj
    dsimp only at h
    split at h
    · simp at h
    · rename_i cls hcls
      split at h
      · rename_i t' hmem
        simp only [gives_bind, gives_write, gives_writeIdent, gives_pure] at h
        obtain ⟨_, rfl, id', ⟨-, rfl⟩, m', ⟨-, rfl⟩, h⟩ := h
        cases h
        refine ⟨by simp only [Expr.erase, h₁, Mark.erase, Ident.erase], ?_, rfl⟩
        simp only [Expr.Typed]
        exact ⟨h₂, o, cls, _, h₃, hcls, hmem, rfl⟩
      · simp at h
  | .call m id args, e', t, h => by
    simp only [Expr.check, gives_bind] at h
    obtain ⟨target, htarget, h⟩ := h
    split at h
    · simp only [gives_bind, gives_write, gives_writeIdent, gives_pure] at h
      obtain ⟨id', ⟨-, rfl⟩, ⟨args', ts⟩, hargs, _, hm, m', ⟨-, rfl⟩, h⟩ := h
      cases h
      obtain ⟨h₁, h₂, h₃⟩ := Expr.checkAll_spec hargs
      refine ⟨by simp only [Expr.erase, h₁, Mark.erase, Ident.erase], ?_, rfl⟩
      simp only [Expr.Typed]
      exact ⟨h₂, _, _, _, htarget, hm.matchArgs h₃, rfl⟩
    · simp at h
    · simp at h
  | .methodCall m method object id args, e', t, h => by
    simp only [Expr.check, gives_bind] at h
    obtain ⟨⟨object', o⟩, hobj, h⟩ := h
    obtain ⟨h₁, h₂, h₃⟩ := Expr.check_spec hobj
    split at h
    · simp at h
    · rename_i f hf
      simp only [gives_bind, gives_write, gives_writeIdent, gives_pure] at h
      obtain ⟨method', ⟨-, rfl⟩, id', ⟨-, rfl⟩, ⟨args', ts⟩, hargs, _, hm, m', ⟨-, rfl⟩, h⟩ := h
      cases h
      obtain ⟨h₄, h₅, h₆⟩ := Expr.checkAll_spec hargs
      refine ⟨by simp only [Expr.erase, h₁, h₄, Mark.erase, Ident.erase], ?_, rfl⟩
      simp only [Expr.Typed]
      exact ⟨h₂, h₅, o, f, h₃, hf, hm.matchArgs h₆, rfl⟩

theorem Expr.checkAll_spec {c : Context} : ∀ {es es' : List Expr} {ts : List (Loc × Ty)},
    Gives (Expr.checkAll c es) (es', ts) → AllChecked c es es' ts
  | [], es', ts, h => by
    simp only [Expr.checkAll, gives_pure, Prod.mk.injEq] at h
    obtain ⟨rfl, rfl⟩ := h
    exact ⟨rfl, by simp only [Expr.AllTyped], rfl⟩
  | e :: es, es', ts, h => by
    simp only [Expr.checkAll, gives_bind, gives_pure] at h
    obtain ⟨⟨e₁, t⟩, he, ⟨es₁, ts₁⟩, hes, h⟩ := h
    cases h
    obtain ⟨h₁, h₂, h₃⟩ := Expr.check_spec he
    obtain ⟨h₄, h₅, h₆⟩ := Expr.checkAll_spec hes
    refine ⟨by simp only [Expr.eraseAll, h₁, h₄], by simpa only [Expr.AllTyped] using ⟨h₂, h₅⟩, ?_⟩
    simp only [HaveTypes, List.map_cons, h₃]
    exact congrArg _ h₆

end

namespace Typing

theorem Gives.condition {c : Context} {e e' : Expr} (h : Gives (checkCondition c e) e') :
    Checked c e e' .bool := by
  simp only [checkCondition, gives_bind, gives_reportUnless, gives_pure] at h
  obtain ⟨⟨e₁, t⟩, he, _, ht, rfl⟩ := h
  obtain rfl : t = .bool := by simpa using ht
  exact Expr.check_spec he

theorem Gives.targets {c : Context} {t : Ty} : ∀ {es es' : List Expr},
    Gives (checkTargets c t es) es' →
      Expr.eraseAll es' = Expr.eraseAll es ∧ ∀ e ∈ es', TargetTyped c t e
  | [], es', h => by
    simp only [checkTargets, gives_pure] at h
    subst h
    simp
  | e :: es, es', h => by
    simp only [checkTargets, gives_bind] at h
    obtain ⟨⟨e₁, place⟩, he, h⟩ := h
    obtain ⟨herase, htyped, htype⟩ := Expr.check_spec he
    dsimp only at h
    split at h
    · simp at h
    · rename_i hstr
      simp only [gives_bind, gives_reportUnless, gives_pure] at h
      obtain ⟨_, hfits, es₁, hes, rfl⟩ := h
      obtain ⟨herases, hall⟩ := hes.targets
      refine ⟨by simp only [Expr.eraseAll, herase, herases], List.forall_mem_cons.2 ⟨?_, hall⟩⟩
      exact ⟨htyped, by simpa using hstr, place, htype, hfits⟩

theorem Gives.return {c : Context} {loc : Loc} {value? : Option (Loc × Ty)} {u : Unit}
    (h : Gives (checkReturn c loc value?) u) :
    ReturnTyped c ((value?.map Prod.snd).getD .noneType) := by
  unfold checkReturn at h
  split at h
  · simp at h
  · rename_i htop
    refine ⟨by simpa using htop, fun expected hret => ?_⟩
    rw [hret] at h
    cases value? with
    | none => simpa using h
    | some value => simpa using h

theorem Gives.varDef {h : Hierarchy} {table : Bindings Entry} {d d' : VarDef}
    (hd : Gives (checkVarDef h table d) d') : d'.erase = d.erase ∧ d'.Typed h table := by
  simp only [checkVarDef, gives_bind] at hd
  obtain ⟨value, hvalue, hd⟩ := hd
  obtain ⟨herase, -, htype⟩ := hvalue.literal
  split at hd
  · rename_i hnone
    simp only [gives_pure] at hd
    obtain ⟨_, -, rfl⟩ := hd
    refine ⟨by simp only [VarDef.erase, herase], htype, fun t ht => ?_⟩
    exact absurd (hnone.symm.trans ht) (by simp)
  · rename_i declared hsome
    simp only [gives_bind, gives_reportUnless, gives_pure] at hd
    obtain ⟨_, hfits, rfl⟩ := hd
    refine ⟨by simp only [VarDef.erase, herase], htype, fun t ht => ?_⟩
    obtain rfl : declared = t := Option.some.inj (hsome.symm.trans ht)
    exact hfits

end Typing

mutual

theorem Stmt.check_spec {c : Context} : ∀ {s s' : Stmt},
    Gives (s.check c) s' → s'.erase = s.erase ∧ s'.Typed c
  | .expr loc e, s', h => by
    simp only [Stmt.check, gives_bind, gives_pure] at h
    obtain ⟨⟨e', t⟩, he, rfl⟩ := h
    obtain ⟨h₁, h₂, -⟩ := Expr.check_spec he
    exact ⟨by simp only [Stmt.erase, h₁], by simpa only [Stmt.Typed] using h₂⟩
  | .assign loc targets value, s', h => by
    simp only [Stmt.check, gives_bind] at h
    obtain ⟨⟨value', t⟩, hvalue, h⟩ := h
    obtain ⟨h₁, h₂, h₃⟩ := Expr.check_spec hvalue
    dsimp only at h
    split at h
    · simp at h
    · rename_i hmany
      simp only [gives_bind, gives_pure] at h
      obtain ⟨targets', htargets, rfl⟩ := h
      obtain ⟨herase, hall⟩ := htargets.targets
      have hlen : targets'.length = targets.length := by
        have := congrArg List.length herase
        simpa [Expr.eraseAll_eq_map] using this
      refine ⟨by simp only [Stmt.erase, h₁, herase], ?_⟩
      simp only [Stmt.Typed]
      refine ⟨h₂, t, h₃, hall, fun ⟨h₄, h₅⟩ => hmany ?_⟩
      simpa [h₅] using hlen ▸ h₄
  | .ite loc test yes no, s', h => by
    simp only [Stmt.check, gives_bind, gives_pure] at h
    obtain ⟨test', htest, yes', hyes, no', hno, rfl⟩ := h
    obtain ⟨h₁, h₂, h₃⟩ := htest.condition
    obtain ⟨h₄, h₅⟩ := Stmt.checkAll_spec hyes
    obtain ⟨h₆, h₇⟩ := Stmt.checkAll_spec hno
    refine ⟨by simp only [Stmt.erase, h₁, h₄, h₆], ?_⟩
    simpa only [Stmt.Typed] using ⟨h₂, h₃, h₅, h₇⟩
  | .loop loc test body, s', h => by
    simp only [Stmt.check, gives_bind, gives_pure] at h
    obtain ⟨test', htest, body', hbody, rfl⟩ := h
    obtain ⟨h₁, h₂, h₃⟩ := htest.condition
    obtain ⟨h₄, h₅⟩ := Stmt.checkAll_spec hbody
    refine ⟨by simp only [Stmt.erase, h₁, h₄], ?_⟩
    simpa only [Stmt.Typed] using ⟨h₂, h₃, h₅⟩
  | .each loc id iterable body, s', h => by
    simp only [Stmt.check, gives_bind] at h
    obtain ⟨⟨iterable', t⟩, hiter, h⟩ := h
    obtain ⟨h₁, h₂, h₃⟩ := Expr.check_spec hiter
    dsimp only at h
    cases helem : elemType? t with
    | none => simp [helem] at h
    | some elem =>
      simp only [helem, Option.isNone_some, Bool.false_eq_true, if_false, gives_bind,
        gives_reportUnless, gives_pure] at h
      obtain ⟨⟨id', var⟩, hid, _, hfits, body', hbody, rfl⟩ := h
      obtain ⟨h₄, h₅, h₆⟩ := hid.name
      obtain ⟨h₇, h₈⟩ := Stmt.checkAll_spec hbody
      refine ⟨by simp only [Stmt.erase, h₁, h₄, h₇], ?_⟩
      simp only [Stmt.Typed]
      exact ⟨h₂, h₈, t, elem, var, h₃, helem, h₅, h₆, hfits⟩
  | .ret loc none, s', h => by
    simp only [Stmt.check, gives_bind, gives_pure] at h
    obtain ⟨_, hret, rfl⟩ := h
    exact ⟨rfl, by simp only [Stmt.Typed]; exact hret.return⟩
  | .ret loc (some e), s', h => by
    simp only [Stmt.check, gives_bind, gives_pure] at h
    obtain ⟨⟨e', t⟩, he, _, hret, rfl⟩ := h
    obtain ⟨h₁, h₂, h₃⟩ := Expr.check_spec he
    refine ⟨by simp only [Stmt.erase, h₁], ?_⟩
    simp only [Stmt.Typed]
    exact ⟨h₂, t, h₃, hret.return⟩

theorem Stmt.checkAll_spec {c : Context} : ∀ {ss ss' : List Stmt},
    Gives (Stmt.checkAll c ss) ss' → Stmt.eraseAll ss' = Stmt.eraseAll ss ∧ Stmt.AllTyped c ss'
  | [], ss', h => by
    simp only [Stmt.checkAll, gives_pure] at h
    subst h
    exact ⟨rfl, by simp only [Stmt.AllTyped]⟩
  | s :: ss, ss', h => by
    simp only [Stmt.checkAll, gives_bind, gives_pure] at h
    obtain ⟨s', hs, ss', hss, rfl⟩ := h
    obtain ⟨h₁, h₂⟩ := Stmt.check_spec hs
    obtain ⟨h₃, h₄⟩ := Stmt.checkAll_spec hss
    exact ⟨by simp only [Stmt.eraseAll, h₁, h₃], by simpa only [Stmt.AllTyped] using ⟨h₂, h₄⟩⟩

end

mutual

theorem FuncDef.check_spec {c : Context} {scope? : Option Scope} : ∀ {f f' : FuncDef},
    Gives (f.check c scope?) f' →
      f'.erase = f.erase ∧ ∀ scope, scope? = some scope → f'.Typed c scope
  | .mk loc id ps ret? decls body, f', h => by
    cases scope? with
    | none =>
      simp only [FuncDef.check, gives_pure] at h
      subst h
      exact ⟨rfl, by simp⟩
    | some scope =>
      simp only [FuncDef.check, gives_bind, gives_pure] at h
      obtain ⟨decls', hdecls, body', hbody, rfl⟩ := h
      obtain ⟨h₁, h₂⟩ := LocalDecl.checkAll_spec hdecls
      obtain ⟨h₃, h₄⟩ := Stmt.checkAll_spec hbody
      refine ⟨by simp only [FuncDef.erase, h₁, h₃], ?_⟩
      rintro _ ⟨⟩
      simpa only [FuncDef.Typed] using ⟨h₂, h₄⟩

theorem LocalDecl.checkAll_spec {c : Context} {scope : Scope} : ∀ {ds ds' : List LocalDecl},
    Gives (LocalDecl.checkAll c scope ds) ds' →
      LocalDecl.eraseAll ds' = LocalDecl.eraseAll ds ∧ LocalDecl.AllTyped c scope ds'
  | [], ds', h => by
    simp only [LocalDecl.checkAll, gives_pure] at h
    subst h
    exact ⟨rfl, by simp only [LocalDecl.AllTyped]⟩
  | .var d :: ds, ds', h => by
    simp only [LocalDecl.checkAll, gives_bind, gives_pure] at h
    obtain ⟨d', hd, ds', hds, rfl⟩ := h
    obtain ⟨h₁, h₂⟩ := hd.varDef
    obtain ⟨h₃, h₄⟩ := LocalDecl.checkAll_spec hds
    refine ⟨by simp only [LocalDecl.eraseAll, LocalDecl.erase, h₁, h₃], ?_⟩
    simpa only [LocalDecl.AllTyped] using ⟨h₂, h₄⟩
  | .func f :: ds, ds', h => by
    simp only [LocalDecl.checkAll, gives_bind, gives_pure] at h
    obtain ⟨f', hf, ds', hds, rfl⟩ := h
    obtain ⟨h₁, h₂⟩ := FuncDef.check_spec hf
    obtain ⟨h₃, h₄⟩ := LocalDecl.checkAll_spec hds
    refine ⟨by simp only [LocalDecl.eraseAll, LocalDecl.erase, h₁, h₃], ?_⟩
    simp only [LocalDecl.AllTyped, FuncDef.name_eq_of_erase h₁]
    exact ⟨h₂, h₄⟩
  | .global loc id :: ds, ds', h => by
    simp only [LocalDecl.checkAll, gives_bind, gives_pure] at h
    obtain ⟨ds', hds, rfl⟩ := h
    obtain ⟨h₃, h₄⟩ := LocalDecl.checkAll_spec hds
    refine ⟨by simp only [LocalDecl.eraseAll, LocalDecl.erase, h₃], ?_⟩
    simpa only [LocalDecl.AllTyped] using h₄
  | .nonlocal loc id :: ds, ds', h => by
    simp only [LocalDecl.checkAll, gives_bind, gives_pure] at h
    obtain ⟨ds', hds, rfl⟩ := h
    obtain ⟨h₃, h₄⟩ := LocalDecl.checkAll_spec hds
    refine ⟨by simp only [LocalDecl.eraseAll, LocalDecl.erase, h₃], ?_⟩
    simpa only [LocalDecl.AllTyped] using h₄

end

namespace Typing

/-- A map over a list gives, element by element, what its function gives. -/
theorem Gives.mapM {α β : Type} {f : α → Typing β} : ∀ {xs : List α} {ys : List β},
    Gives (xs.mapM f) ys → List.Forall₂ (fun x y => Gives (f x) y) xs ys
  | [], ys, h => by
    simp only [List.mapM_nil, gives_pure] at h
    subst h
    exact .nil
  | x :: xs, ys, h => by
    simp only [List.mapM_cons, gives_bind, gives_pure] at h
    obtain ⟨y, hy, ys, hys, rfl⟩ := h
    exact .cons hy hys.mapM

theorem Gives.member {c : Context} {scope : Scope} {m m' : Member}
    (h : Gives (checkMember c scope m) m') : m'.erase = m.erase ∧ m'.Typed c scope := by
  cases m with
  | attr d =>
    simp only [checkMember, gives_bind, gives_pure] at h
    obtain ⟨d', hd, rfl⟩ := h
    obtain ⟨h₁, h₂⟩ := hd.varDef
    exact ⟨by simp only [Member.erase, h₁], h₂⟩
  | method f =>
    simp only [checkMember, gives_bind, gives_pure] at h
    obtain ⟨f', hf, rfl⟩ := h
    obtain ⟨h₁, h₂⟩ := FuncDef.check_spec hf
    exact ⟨by simp only [Member.erase, h₁], by rwa [Member.Typed, FuncDef.name_eq_of_erase h₁]⟩

theorem Gives.top {c : Context} {d d' : TopDecl} (h : Gives (checkTop c d) d') :
    d'.erase = d.erase ∧ d'.Typed c := by
  cases d with
  | var d =>
    simp only [checkTop, gives_bind, gives_pure] at h
    obtain ⟨d', hd, rfl⟩ := h
    obtain ⟨h₁, h₂⟩ := hd.varDef
    exact ⟨by simp only [TopDecl.erase, h₁], h₂⟩
  | func f =>
    simp only [checkTop, gives_bind, gives_pure] at h
    obtain ⟨f', hf, rfl⟩ := h
    obtain ⟨h₁, h₂⟩ := FuncDef.check_spec hf
    exact ⟨by simp only [TopDecl.erase, h₁], by rwa [TopDecl.Typed, FuncDef.name_eq_of_erase h₁]⟩
  | cls d =>
    simp only [checkTop] at h
    split at h
    · rename_i hnone
      simp only [gives_pure] at h
      subst h
      exact ⟨rfl, fun scope hscope => absurd (hnone.symm.trans hscope) (by simp)⟩
    · rename_i scope hscope
      simp only [gives_bind, gives_pure] at h
      obtain ⟨members, hmembers, rfl⟩ := h
      have hall := hmembers.mapM.imp fun _ _ => Gives.member
      refine ⟨?_, fun scope' hscope' m hm => ?_⟩
      · simp only [TopDecl.erase, ClassDef.erase]
        congr 2
        exact map_eq_map_of_forall₂ (hall.imp fun _ _ h => h.1)
      · obtain rfl : scope = scope' := Option.some.inj (hscope.symm.trans hscope')
        exact forall_right_of_forall₂ (hall.imp fun _ _ h => h.2) m hm

end Typing

/-- A program checked without a report is the given one with its slots filled, and typed. -/
theorem Program.check_spec {globals : Scope} {p q : Program} (h : Gives (p.check globals) q) :
    q.erase = p.erase ∧ q.Typed globals := by
  simp only [Program.check, gives_bind, gives_pure] at h
  obtain ⟨decls, hdecls, body, hbody, rfl⟩ := h
  obtain ⟨h₁, h₂⟩ := Stmt.checkAll_spec hbody
  have hall := hdecls.mapM.imp fun _ _ => Gives.top
  refine ⟨?_, forall_right_of_forall₂ (hall.imp fun _ _ h => h.2), h₂⟩
  simp only [Program.erase, h₁, map_eq_map_of_forall₂ (hall.imp fun _ _ h => h.1)]

end ChocoRv
