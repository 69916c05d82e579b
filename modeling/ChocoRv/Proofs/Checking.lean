import ChocoRv.Analysis.Typing
import ChocoRv.Proofs.Slots

/-!
# Checking fills every slot

Checking goes on after a problem, so it ends whatever the types are: `Ends` says in what a
computation ends, however much it reports, and which constructors may stop it. Its laws run the
checker symbolically, and an induction over the tree shows that the given tree comes back with
every slot filled. Nothing is assumed of the types, and of the scope only what a called name
stands for.
-/

namespace ChocoRv

namespace Typing

/-! ### How checking ends -/

section
variable {α β : Type} {bad : Name → Prop} {Q : α → Prop}

/-- The computation ends with a value in `Q`, or it stops at a constructor of a `bad` class. -/
def Ends (bad : Name → Prop) (x : Typing α) (Q : α → Prop) : Prop :=
  match x.run.value with
  | .ok a => Q a
  | .error (.constructor cls) => bad cls
  | .error (.slot _) => False

theorem ends_pure {a : α} : Ends bad (pure a) Q ↔ Q a := Iff.rfl

theorem ends_bind {x : Typing α} {f : α → Typing β} {Q : β → Prop} :
    Ends bad (x >>= f) Q ↔ Ends bad x fun a => Ends bad (f a) Q := by
  obtain ⟨r, ds⟩ := x
  cases r with
  | ok a => rfl
  | error e => cases e <;> rfl

theorem ends_report {loc : Loc} {p : Problem} {Q : Unit → Prop} :
    Ends bad (report loc p) Q ↔ Q () := Iff.rfl

theorem ends_reportUnless {ok : Bool} {loc : Loc} {p : Problem} {Q : Unit → Prop} :
    Ends bad (reportUnless ok loc p) Q ↔ Q () := by
  cases ok <;> rfl

/-- A write into an empty slot. -/
theorem ends_write {loc : Loc} {e : Entry} {Q : Mark → Prop} :
    Ends bad (write ⟨loc, none⟩ e) Q ↔ Q ⟨loc, some e⟩ := Iff.rfl

theorem ends_writeIdent {loc : Loc} {x : Name} {e : Entry} {Q : Ident → Prop} :
    Ends bad (writeIdent ⟨⟨loc, none⟩, x⟩ e) Q ↔ Q ⟨⟨loc, some e⟩, x⟩ := Iff.rfl

theorem Ends.mono {x : Typing α} {P : α → Prop} (h : Ends bad x P) (hPQ : ∀ a, P a → Q a) :
    Ends bad x Q := by
  obtain ⟨r, ds⟩ := x
  cases r with
  | ok a => exact hPQ a h
  | error e => cases e <;> exact h

end

/-- The tree `t'` is `t` with every slot filled. -/
structure Fills {τ : Type} (erase : τ → τ) (slots : τ → List Slot) (t t' : τ) : Prop where
  erase : erase t' = erase t
  filled : ∀ s ∈ slots t', s.Filled

/-- Names can be called in the context, but for constructors of `bad` classes. -/
def CalleesEnd (bad : Name → Prop) (c : Context) : Prop :=
  ∀ x, Ends bad (callee c x) fun _ => True

variable {bad : Name → Prop} {c : Context}

/-! ### Expressions -/

theorem reportArgs_ends (h : Hierarchy) : ∀ (i : Nat) (ps : List Ty) (args : List (Loc × Ty)),
    Ends bad (reportArgs h i ps args) fun _ => True
  | _, [], _ => trivial
  | _, _ :: _, [] => trivial
  | i, p :: ps, (loc, t) :: args => by
    simp only [reportArgs, ends_bind, ends_reportUnless]
    exact reportArgs_ends h (i + 1) ps args

theorem matchArgs_ends (h : Hierarchy) (loc : Loc) (ps : List Ty) (args : List (Loc × Ty)) :
    Ends bad (matchArgs h loc ps args) fun _ => True := by
  unfold matchArgs
  split
  · exact reportArgs_ends h 1 ps args
  · trivial

theorem checkLiteral_ends (l : Literal) : Ends bad (checkLiteral l.erase)
    fun l' => l'.erase = l.erase ∧ Slot.Filled ⟨.value, l'.mark⟩ := by
  simp only [checkLiteral, Literal.erase, Mark.erase, ends_bind, ends_write, ends_pure]
  exact ⟨trivial, .value⟩

theorem checkName_ends (c : Context) (id : Ident) : Ends bad (checkName c id.erase)
    fun r => r.1.erase = id.erase ∧ Slot.Filled ⟨.value, r.1.mark⟩ := by
  unfold checkName
  split
  · simp only [Ident.erase, Mark.erase, ends_bind, ends_writeIdent, ends_pure]
    exact ⟨trivial, .value⟩
  · simp only [Ident.erase, Mark.erase, ends_bind, ends_report, ends_writeIdent, ends_pure]
    exact ⟨trivial, .value⟩

end Typing

open Typing

variable {bad : Name → Prop} {c : Context}

mutual

theorem Expr.check_ends (hc : CalleesEnd bad c) : ∀ e : Expr,
    Ends bad (e.erase.check c) fun r => Fills Expr.erase Expr.slots e r.1
  | .lit l => by
    simp only [Expr.erase, Expr.check, ends_bind]
    refine (checkLiteral_ends l).mono fun l' ⟨herase, hfilled⟩ => ?_
    rw [ends_pure]
    exact ⟨by simp only [Expr.erase, herase], by simpa only [Expr.slots, List.forall_mem_singleton]⟩
  | .name id => by
    simp only [Expr.erase, Expr.check, ends_bind]
    refine (checkName_ends c id).mono fun ⟨id', t⟩ ⟨herase, hfilled⟩ => ?_
    dsimp only at herase hfilled ⊢
    rw [ends_pure]
    exact ⟨by simp only [Expr.erase, herase], by simpa only [Expr.slots, List.forall_mem_singleton]⟩
  | .unary m op e => by
    simp only [Expr.erase, Expr.check, Mark.erase, ends_bind]
    refine (Expr.check_ends hc e).mono fun ⟨e', t⟩ he => ?_
    simp only [ends_reportUnless, ends_write, ends_pure]
    refine ⟨by simp only [Expr.erase, he.erase, Mark.erase], ?_⟩
    simpa only [Expr.slots, List.forall_mem_cons] using ⟨.value, he.filled⟩
  | .binary m l op r => by
    simp only [Expr.erase, Expr.check, Mark.erase, ends_bind]
    refine (Expr.check_ends hc l).mono fun ⟨l', a⟩ hl =>
      (Expr.check_ends hc r).mono fun ⟨r', b⟩ hr => ?_
    simp only [ends_reportUnless, ends_write, ends_pure]
    refine ⟨by simp only [Expr.erase, hl.erase, hr.erase, Mark.erase], ?_⟩
    simpa only [Expr.slots, List.forall_mem_cons, List.forall_mem_append] using
      ⟨.value, hl.filled, hr.filled⟩
  | .cond m test yes no => by
    simp only [Expr.erase, Expr.check, Mark.erase, ends_bind]
    refine (Expr.check_ends hc test).mono fun ⟨test', b⟩ htest => ?_
    simp only [ends_reportUnless]
    refine (Expr.check_ends hc yes).mono fun ⟨yes', t₁⟩ hyes =>
      (Expr.check_ends hc no).mono fun ⟨no', t₂⟩ hno => ?_
    simp only [ends_write, ends_pure]
    refine ⟨by simp only [Expr.erase, htest.erase, hyes.erase, hno.erase, Mark.erase], ?_⟩
    simpa only [Expr.slots, List.forall_mem_cons, List.forall_mem_append] using
      ⟨.value, htest.filled, hyes.filled, hno.filled⟩
  | .list m elems => by
    simp only [Expr.erase, Expr.check, Mark.erase, ends_bind]
    refine (Expr.checkAll_ends hc elems).mono fun ⟨elems', ts⟩ helems => ?_
    simp only [ends_write, ends_pure]
    refine ⟨by simp only [Expr.erase, helems.erase, Mark.erase], ?_⟩
    simpa only [Expr.slots, List.forall_mem_cons] using ⟨.value, helems.filled⟩
  | .index m seq i => by
    simp only [Expr.erase, Expr.check, Mark.erase, ends_bind]
    refine (Expr.check_ends hc seq).mono fun ⟨seq', s⟩ hseq =>
      (Expr.check_ends hc i).mono fun ⟨i', it⟩ hi => ?_
    have hfills (t : Ty) : Fills Expr.erase Expr.slots (.index m seq i)
        (.index ⟨m.loc, some (.value t)⟩ seq' i') := by
      refine ⟨by simp only [Expr.erase, hseq.erase, hi.erase, Mark.erase], ?_⟩
      simpa only [Expr.slots, List.forall_mem_cons, List.forall_mem_append] using
        ⟨.value, hseq.filled, hi.filled⟩
    dsimp only
    split
    · simp only [ends_bind, ends_reportUnless, ends_write, ends_pure]
      exact hfills _
    · simp only [ends_bind, ends_report, ends_write, ends_pure]
      exact hfills _
  | .member m object id => by
    simp only [Expr.erase, Expr.check, Mark.erase, Ident.erase, ends_bind]
    refine (Expr.check_ends hc object).mono fun ⟨object', o⟩ hobject => ?_
    have hfills (t : Ty) : Fills Expr.erase Expr.slots (.member m object id)
        (.member ⟨m.loc, some (.value t)⟩ object' ⟨⟨id.mark.loc, some (.value t)⟩, id.name⟩) := by
      refine ⟨by simp only [Expr.erase, hobject.erase, Mark.erase, Ident.erase], ?_⟩
      simpa only [Expr.slots, List.forall_mem_cons, List.forall_mem_append, List.not_mem_nil,
        false_imp_iff, implies_true, and_true] using ⟨.value, hobject.filled, .value⟩
    dsimp only
    split
    · simp only [ends_bind, ends_report, ends_write, ends_writeIdent, ends_pure]
      exact hfills _
    · split
      · simp only [ends_bind, ends_write, ends_writeIdent, ends_pure]
        exact hfills _
      · simp only [ends_bind, ends_report, ends_write, ends_writeIdent, ends_pure]
        exact hfills _
  | .call m id args => by
    simp only [Expr.erase, Expr.check, Mark.erase, Ident.erase, ends_bind]
    have hfills {args' : List Expr} (hargs : Fills Expr.eraseAll Expr.allSlots args args')
        (e : Entry) (t : Ty) : Fills Expr.erase Expr.slots (.call m id args)
          (.call ⟨m.loc, some (.value t)⟩ ⟨⟨id.mark.loc, some e⟩, id.name⟩ args') := by
      refine ⟨by simp only [Expr.erase, hargs.erase, Mark.erase, Ident.erase], ?_⟩
      simpa only [Expr.slots, List.forall_mem_cons] using ⟨.value, .callee, hargs.filled⟩
    refine (hc id.name).mono fun target _ => ?_
    cases target with
    | func entry params result =>
      simp only [ends_bind, ends_writeIdent]
      refine (Expr.checkAll_ends hc args).mono fun ⟨args', ts⟩ hargs => ?_
      exact (matchArgs_ends _ _ _ _).mono fun _ _ => hfills hargs _ _
    | special entry result =>
      simp only [ends_bind, ends_writeIdent]
      refine (Expr.checkAll_ends hc args).mono fun ⟨args', ts⟩ hargs => ?_
      exact (matchArgs_ends _ _ _ _).mono fun _ _ => hfills hargs _ _
    | unknown =>
      simp only [ends_bind, ends_writeIdent]
      refine (Expr.checkAll_ends hc args).mono fun ⟨args', ts⟩ hargs => ?_
      exact hfills hargs _ _
  | .methodCall m method object id args => by
    simp only [Expr.erase, Expr.check, Mark.erase, Ident.erase, ends_bind]
    refine (Expr.check_ends hc object).mono fun ⟨object', receiver⟩ hobject => ?_
    have hfills {args' : List Expr} (hargs : Fills Expr.eraseAll Expr.allSlots args args')
        (e : Entry) (t : Ty) : Fills Expr.erase Expr.slots (.methodCall m method object id args)
          (.methodCall ⟨m.loc, some (.value t)⟩ ⟨method.loc, some e⟩ object'
            ⟨⟨id.mark.loc, some e⟩, id.name⟩ args') := by
      refine ⟨by simp only [Expr.erase, hobject.erase, hargs.erase, Mark.erase, Ident.erase], ?_⟩
      simpa only [Expr.slots, List.forall_mem_cons, List.forall_mem_append] using
        ⟨.value, .callee, hobject.filled, .callee, hargs.filled⟩
    dsimp only
    split
    · simp only [ends_bind, ends_write, ends_writeIdent]
      refine (Expr.checkAll_ends hc args).mono fun ⟨args', ts⟩ hargs => ?_
      exact hfills hargs _ _
    · simp only [ends_bind, ends_write, ends_writeIdent]
      refine (Expr.checkAll_ends hc args).mono fun ⟨args', ts⟩ hargs => ?_
      exact (matchArgs_ends _ _ _ _).mono fun _ _ => hfills hargs _ _

theorem Expr.checkAll_ends (hc : CalleesEnd bad c) : ∀ es : List Expr,
    Ends bad (Expr.checkAll c (Expr.eraseAll es)) fun r => Fills Expr.eraseAll Expr.allSlots es r.1
  | [] => ⟨rfl, by simp only [Expr.allSlots, List.not_mem_nil, false_imp_iff, implies_true]⟩
  | e :: es => by
    simp only [Expr.eraseAll, Expr.checkAll, ends_bind]
    refine (Expr.check_ends hc e).mono fun ⟨e', t⟩ he =>
      (Expr.checkAll_ends hc es).mono fun ⟨es', ts⟩ hes => ?_
    rw [ends_pure]
    refine ⟨by simp only [Expr.eraseAll, he.erase, hes.erase], ?_⟩
    simpa only [Expr.allSlots, List.forall_mem_append] using ⟨he.filled, hes.filled⟩

end

/-! ### Statements -/

namespace Typing

theorem checkCondition_ends (hc : CalleesEnd bad c) (e : Expr) :
    Ends bad (checkCondition c e.erase) (Fills Expr.erase Expr.slots e) := by
  simp only [checkCondition, ends_bind]
  refine (Expr.check_ends hc e).mono fun ⟨e', t⟩ he => ?_
  simp only [ends_reportUnless, ends_pure]
  exact he

theorem checkTargets_ends (hc : CalleesEnd bad c) (t : Ty) : ∀ es : List Expr,
    Ends bad (checkTargets c t (Expr.eraseAll es)) (Fills Expr.eraseAll Expr.allSlots es)
  | [] => ⟨rfl, by simp only [Expr.allSlots, List.not_mem_nil, false_imp_iff, implies_true]⟩
  | e :: es => by
    simp only [Expr.eraseAll, checkTargets, ends_bind]
    refine (Expr.check_ends hc e).mono fun ⟨e', place⟩ he => ?_
    have hrest : Ends bad (checkTargets c t (Expr.eraseAll es)) fun es' =>
        Ends bad (pure (e' :: es')) (Fills Expr.eraseAll Expr.allSlots (e :: es)) := by
      refine (checkTargets_ends hc t es).mono fun es' hes => ?_
      rw [ends_pure]
      refine ⟨by simp only [Expr.eraseAll, he.erase, hes.erase], ?_⟩
      simpa only [Expr.allSlots, List.forall_mem_append] using ⟨he.filled, hes.filled⟩
    dsimp only
    split
    · simp only [ends_bind, ends_report]
      exact hrest
    · simp only [ends_bind, ends_reportUnless]
      exact hrest

theorem checkReturn_ends (c : Context) (loc : Loc) (value? : Option (Loc × Ty)) :
    Ends bad (checkReturn c loc value?) fun _ => True := by
  unfold checkReturn
  split
  · trivial
  · split
    · trivial
    · split <;> simp only [ends_reportUnless]

theorem checkVarDef_ends (h : Hierarchy) (table : Bindings Entry) (d : VarDef) :
    Ends bad (checkVarDef h table d.erase) (Fills VarDef.erase VarDef.slots d) := by
  simp only [checkVarDef, VarDef.erase, ends_bind]
  refine (checkLiteral_ends d.value).mono fun value hvalue => ?_
  obtain ⟨herase, hfilled⟩ := hvalue
  have hfills : Fills VarDef.erase VarDef.slots d { d with value } := by
    refine ⟨by simp only [VarDef.erase, herase], ?_⟩
    simpa only [VarDef.slots, List.forall_mem_singleton] using hfilled
  split
  · exact hfills
  · simp only [ends_bind, ends_reportUnless]
    exact hfills

end Typing

mutual

theorem Stmt.check_ends (hc : CalleesEnd bad c) : ∀ s : Stmt,
    Ends bad (s.erase.check c) (Fills Stmt.erase Stmt.slots s)
  | .expr loc e => by
    simp only [Stmt.erase, Stmt.check, ends_bind]
    refine (Expr.check_ends hc e).mono fun ⟨e', t⟩ he => ?_
    rw [ends_pure]
    exact ⟨by simp only [Stmt.erase, he.erase], by simpa only [Stmt.slots] using he.filled⟩
  | .assign loc targets value => by
    simp only [Stmt.erase, Stmt.check, ends_bind]
    refine (Expr.check_ends hc value).mono fun ⟨value', t⟩ hvalue => ?_
    have hrest : Ends bad (checkTargets c t (Expr.eraseAll targets)) fun targets' =>
        Ends bad (pure (.assign loc targets' value'))
          (Fills Stmt.erase Stmt.slots (.assign loc targets value)) := by
      refine (checkTargets_ends hc t targets).mono fun targets' htargets => ?_
      rw [ends_pure]
      refine ⟨by simp only [Stmt.erase, htargets.erase, hvalue.erase], ?_⟩
      simpa only [Stmt.slots, List.forall_mem_append] using ⟨htargets.filled, hvalue.filled⟩
    dsimp only
    split
    · simp only [ends_bind, ends_report]
      exact hrest
    · simp only [ends_bind]
      exact hrest
  | .ite loc test yes no => by
    simp only [Stmt.erase, Stmt.check, ends_bind]
    refine (checkCondition_ends hc test).mono fun test' htest =>
      (Stmt.checkAll_ends hc yes).mono fun yes' hyes =>
        (Stmt.checkAll_ends hc no).mono fun no' hno => ?_
    rw [ends_pure]
    refine ⟨by simp only [Stmt.erase, htest.erase, hyes.erase, hno.erase], ?_⟩
    simpa only [Stmt.slots, List.forall_mem_append] using
      ⟨htest.filled, hyes.filled, hno.filled⟩
  | .loop loc test body => by
    simp only [Stmt.erase, Stmt.check, ends_bind]
    refine (checkCondition_ends hc test).mono fun test' htest =>
      (Stmt.checkAll_ends hc body).mono fun body' hbody => ?_
    rw [ends_pure]
    refine ⟨by simp only [Stmt.erase, htest.erase, hbody.erase], ?_⟩
    simpa only [Stmt.slots, List.forall_mem_append] using ⟨htest.filled, hbody.filled⟩
  | .each loc id iterable body => by
    simp only [Stmt.erase, Stmt.check, ends_bind]
    refine (Expr.check_ends hc iterable).mono fun ⟨iterable', t⟩ hiterable => ?_
    have hbody (id' : Ident) (hid : id'.erase = id.erase ∧ Slot.Filled ⟨.value, id'.mark⟩) :
        Ends bad (Stmt.checkAll c (Stmt.eraseAll body)) fun body' =>
          Ends bad (pure (.each loc id' iterable' body'))
            (Fills Stmt.erase Stmt.slots (.each loc id iterable body)) := by
      refine (Stmt.checkAll_ends hc body).mono fun body' hbody => ?_
      rw [ends_pure]
      refine ⟨by simp only [Stmt.erase, hid.1, hiterable.erase, hbody.erase], ?_⟩
      simpa only [Stmt.slots, List.forall_mem_cons, List.forall_mem_append] using
        ⟨hid.2, hiterable.filled, hbody.filled⟩
    dsimp only
    cases elemType? t with
    | none =>
      simp only [Option.isNone_none, if_true, ends_bind, ends_report, ends_pure]
      exact (checkName_ends c id).mono fun ⟨id', var⟩ hid => hbody id' hid
    | some elem =>
      simp only [Option.isNone_some, Bool.false_eq_true, if_false, ends_bind, ends_pure]
      refine (checkName_ends c id).mono fun ⟨id', var⟩ hid => ?_
      simp only [ends_reportUnless]
      exact hbody id' hid
  | .ret loc none => by
    simp only [Stmt.erase, Stmt.check, ends_bind]
    refine (checkReturn_ends c loc none).mono fun _ _ => ?_
    rw [ends_pure]
    exact ⟨rfl, by simp only [Stmt.slots, List.not_mem_nil, false_imp_iff, implies_true]⟩
  | .ret loc (some e) => by
    simp only [Stmt.erase, Stmt.check, ends_bind]
    refine (Expr.check_ends hc e).mono fun ⟨e', t⟩ he =>
      (checkReturn_ends c loc _).mono fun _ _ => ?_
    rw [ends_pure]
    exact ⟨by simp only [Stmt.erase, he.erase], by simpa only [Stmt.slots] using he.filled⟩

theorem Stmt.checkAll_ends (hc : CalleesEnd bad c) : ∀ ss : List Stmt,
    Ends bad (Stmt.checkAll c (Stmt.eraseAll ss)) (Fills Stmt.eraseAll Stmt.allSlots ss)
  | [] => ⟨rfl, by simp only [Stmt.allSlots, List.not_mem_nil, false_imp_iff, implies_true]⟩
  | s :: ss => by
    simp only [Stmt.eraseAll, Stmt.checkAll, ends_bind]
    refine (Stmt.check_ends hc s).mono fun s' hs =>
      (Stmt.checkAll_ends hc ss).mono fun ss' hss => ?_
    rw [ends_pure]
    refine ⟨by simp only [Stmt.eraseAll, hs.erase, hss.erase], ?_⟩
    simpa only [Stmt.allSlots, List.forall_mem_append] using ⟨hs.filled, hss.filled⟩

end

end ChocoRv
