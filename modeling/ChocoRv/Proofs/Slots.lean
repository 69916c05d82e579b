import ChocoRv.Proofs.Acceptance
import ChocoRv.Proofs.Erasure

/-!
# Slots

`slots` lists the slots of a tree, those of an expression in front of those of its parts. The
slots of a called name and of the member expression of a method call tell what is called; all
others tell the type of a value. `Filled` is said of a slot that was empty and then written once.
A tree that a text spells is its own erasure: the parser leaves every slot empty, which is read
off the rules of the grammar.
-/

namespace ChocoRv

inductive Role where
  | value
  | callee
deriving DecidableEq, Repr

structure Slot where
  role : Role
  mark : Mark
deriving DecidableEq, Repr

/-- The slot is what one write leaves of an empty slot, and a slot for a value has its type. -/
def Slot.Filled (s : Slot) : Prop :=
  ∃ e, Mark.write ⟨s.mark.loc, none⟩ e = .ok s.mark ∧ (s.role = .value → ∃ t, e = .value t)

namespace Slot.Filled

theorem value {loc : Loc} {t : Ty} : Filled ⟨.value, ⟨loc, some (.value t)⟩⟩ :=
  ⟨_, rfl, fun _ => ⟨t, rfl⟩⟩

theorem callee {loc : Loc} {e : Entry} : Filled ⟨.callee, ⟨loc, some e⟩⟩ :=
  ⟨e, rfl, fun h => by cases h⟩

end Slot.Filled

/-! ### The slots of a tree -/

mutual

def Expr.slots : Expr → List Slot
  | .lit l => [⟨.value, l.mark⟩]
  | .name id => [⟨.value, id.mark⟩]
  | .unary m _ e => ⟨.value, m⟩ :: e.slots
  | .binary m l _ r => ⟨.value, m⟩ :: (l.slots ++ r.slots)
  | .cond m test yes no => ⟨.value, m⟩ :: (test.slots ++ (yes.slots ++ no.slots))
  | .list m elems => ⟨.value, m⟩ :: Expr.allSlots elems
  | .index m seq i => ⟨.value, m⟩ :: (seq.slots ++ i.slots)
  | .member m object id => ⟨.value, m⟩ :: (object.slots ++ [⟨.value, id.mark⟩])
  | .call m id args => ⟨.value, m⟩ :: ⟨.callee, id.mark⟩ :: Expr.allSlots args
  | .methodCall m method object id args =>
    ⟨.value, m⟩ :: ⟨.callee, method⟩ ::
      (object.slots ++ ⟨.callee, id.mark⟩ :: Expr.allSlots args)

def Expr.allSlots : List Expr → List Slot
  | [] => []
  | e :: es => e.slots ++ Expr.allSlots es

end

mutual

def Stmt.slots : Stmt → List Slot
  | .expr _ e => e.slots
  | .assign _ targets value => Expr.allSlots targets ++ value.slots
  | .ite _ test yes no => test.slots ++ (Stmt.allSlots yes ++ Stmt.allSlots no)
  | .loop _ test body => test.slots ++ Stmt.allSlots body
  | .each _ id iterable body => ⟨.value, id.mark⟩ :: (iterable.slots ++ Stmt.allSlots body)
  | .ret _ none => []
  | .ret _ (some e) => e.slots

def Stmt.allSlots : List Stmt → List Slot
  | [] => []
  | s :: ss => s.slots ++ Stmt.allSlots ss

end

def VarDef.slots (d : VarDef) : List Slot := [⟨.value, d.value.mark⟩]

mutual

def FuncDef.slots : FuncDef → List Slot
  | .mk _ _ _ _ decls body => LocalDecl.allSlots decls ++ Stmt.allSlots body

def LocalDecl.allSlots : List LocalDecl → List Slot
  | [] => []
  | .var d :: ds => d.slots ++ LocalDecl.allSlots ds
  | .func f :: ds => f.slots ++ LocalDecl.allSlots ds
  | .global _ _ :: ds => LocalDecl.allSlots ds
  | .nonlocal _ _ :: ds => LocalDecl.allSlots ds

end

def Member.slots : Member → List Slot
  | .attr d => d.slots
  | .method f => f.slots

def TopDecl.slots : TopDecl → List Slot
  | .var d => d.slots
  | .func f => f.slots
  | .cls c => c.members.flatMap Member.slots

def Program.slots (p : Program) : List Slot :=
  p.decls.flatMap TopDecl.slots ++ Stmt.allSlots p.body

/-! ### Parsed trees have empty slots -/

theorem Stmt.eraseAll_eq_map (ss : List Stmt) : Stmt.eraseAll ss = ss.map Stmt.erase := by
  induction ss with
  | nil => rfl
  | cons s ss ih => simp [Stmt.eraseAll, ih]

theorem Literal.Derives.erase {l : Literal} {t : Token} (h : l.Derives t) : l.erase = l := by
  cases h <;> rfl

theorem VarDef.Derives.erase {d : VarDef} {w : List Token} (h : d.Derives w) : d.erase = d := by
  cases h with
  | mk _ _ _ hvalue => simp only [VarDef.erase, hvalue.erase]

namespace ExprPhrase

/-- The phrase without its types. -/
def erase : ExprPhrase → ExprPhrase
  | expr e => expr e.erase
  | disjunction e => disjunction e.erase
  | conjunction e => conjunction e.erase
  | denial e => denial e.erase
  | comparison e => comparison e.erase
  | sum e => sum e.erase
  | product e => product e.erase
  | negation e => negation e.erase
  | primary e => primary e.erase
  | atom e => atom e.erase
  | elems es => elems (es.map Expr.erase)
  | items close es => items close (es.map Expr.erase)

theorem Derives.erase {phrase : ExprPhrase} {w : List Token} (h : phrase.Derives w) :
    phrase.erase = phrase := by
  induction h with
  | lit hl => simp only [ExprPhrase.erase, Expr.erase, hl.erase]
  | _ => simp_all [ExprPhrase.erase, Expr.erase, Mark.erase, Ident.erase, Expr.joined,
      Expr.eraseAll_eq_map]

theorem Derives.expr_erase {e : Expr} {w : List Token} (h : (ExprPhrase.expr e).Derives w) :
    e.erase = e :=
  ExprPhrase.expr.inj h.erase

end ExprPhrase

theorem TargetsDerive.erase {es : List Expr} {w : List Token} (h : TargetsDerive es w) :
    es.map Expr.erase = es := by
  induction h with
  | nil => rfl
  | snoc _ _ _ he ih => rw [List.map_append, ih, List.map_singleton, he.expr_erase]

namespace StmtPhrase

def erase : StmtPhrase → StmtPhrase
  | stmt s => stmt (s.map Stmt.erase)
  | stmts ss => stmts (ss.map Stmt.erase)
  | suite ss => suite (ss.map Stmt.erase)
  | block ss => block (ss.map Stmt.erase)
  | alternative ss => alternative (ss.map Stmt.erase)

theorem Derives.erase {phrase : StmtPhrase} {w : List Token} (h : phrase.Derives w) :
    phrase.erase = phrase := by
  induction h with
  | retValue _ _ he | expr _ he =>
    simp only [StmtPhrase.erase, Option.map_some, Stmt.erase, he.expr_erase]
  | assign _ hes he =>
    simp only [StmtPhrase.erase, Option.map_some, Stmt.erase, Expr.eraseAll_eq_map, hes.erase,
      he.expr_erase]
  | ite _ hc _ _ _ _ | elif_ _ hc _ _ _ _ | loop _ hc _ _ | each _ _ _ _ hc _ _ =>
    have hc := hc.expr_erase
    simp_all [StmtPhrase.erase, Stmt.erase, Stmt.eraseAll_eq_map, Ident.erase, Mark.erase]
  | suite _ _ _ hss hs | snoc _ _ hss hs =>
    simp only [StmtPhrase.erase, StmtPhrase.stmts.injEq, StmtPhrase.stmt.injEq] at hss hs
    simp only [StmtPhrase.erase, List.map_append, hss, ← Option.toList_map, hs]
  | _ => simp_all [StmtPhrase.erase, Stmt.erase]

end StmtPhrase

namespace FuncPhrase

def erase : FuncPhrase → FuncPhrase
  | func f => func f.erase
  | decl d => decl d.erase
  | decls ds => decls (ds.map LocalDecl.erase)

theorem Derives.erase {phrase : FuncPhrase} {w : List Token} (h : phrase.Derives w) :
    phrase.erase = phrase := by
  induction h with
  | func _ _ _ _ _ _ _ _ _ hbody ih =>
    have hbody := StmtPhrase.suite.inj hbody.erase
    have hdecls := FuncPhrase.decls.inj ih
    simp only [FuncPhrase.erase, FuncDef.erase, LocalDecl.eraseAll_eq_map, hdecls,
      Stmt.eraseAll_eq_map, hbody]
  | var hd => simp only [FuncPhrase.erase, LocalDecl.erase, hd.erase]
  | «local» _ ih =>
    have hf := FuncPhrase.func.inj ih
    simp only [FuncPhrase.erase, LocalDecl.erase, hf]
  | _ => simp_all [FuncPhrase.erase, LocalDecl.erase]

end FuncPhrase

theorem MembersDerive.erase {ms : List Member} {w : List Token} (h : MembersDerive ms w) :
    ms.map Member.erase = ms := by
  induction h with
  | nil => rfl
  | pass _ _ _ ih => exact ih
  | attr _ hd ih => rw [List.map_append, ih, List.map_singleton, Member.erase, hd.erase]
  | method _ hf ih =>
    rw [List.map_append, ih, List.map_singleton, Member.erase, FuncPhrase.func.inj hf.erase]

theorem TopDeclsDerive.erase {ds : List TopDecl} {w : List Token} (h : TopDeclsDerive ds w) :
    ds.map TopDecl.erase = ds := by
  induction h with
  | nil => rfl
  | var _ hd ih => rw [List.map_append, ih, List.map_singleton, TopDecl.erase, hd.erase]
  | func _ hf ih =>
    rw [List.map_append, ih, List.map_singleton, TopDecl.erase, FuncPhrase.func.inj hf.erase]
  | cls _ hc ih =>
    cases hc with
    | mk _ _ _ _ _ _ _ _ _ _ _ hms =>
      rw [List.map_append, ih, List.map_singleton, TopDecl.erase, ClassDef.erase, hms.erase]

/-- The parser leaves every slot empty. -/
theorem erase_of_parse {source : Bytes} {p : Program} (h : parse source = .ok p) :
    p.erase = p := by
  obtain ⟨ts, -, hderives⟩ := parse_iff.1 h
  cases hderives with
  | mk _ hdecls hbody =>
    rw [Program.erase, hdecls.erase, Stmt.eraseAll_eq_map, StmtPhrase.stmts.inj hbody.erase]

end ChocoRv
