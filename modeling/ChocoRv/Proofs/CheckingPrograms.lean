import ChocoRv.Proofs.Checking
import ChocoRv.Proofs.Meanings
import ChocoRv.Proofs.Overriding

/-!
# Checking programs

Types are checked in the scopes that the declarations built, and this is what checking needs of
them: each function finds its scope, and what a table binds to a class is a class of the program,
whose constructor is a method with a parameter. Only a class that is itself called `__init__`
hides the constructor that it and the classes below it inherit. `checking_fills` says that the
check of a parsed program without a report comes to an end with every slot filled, unless it meets
such a constructor.
-/

namespace ChocoRv

open Typing

variable {globals : Scope} {p : Program} {c : Context}

/-- A class that is called `__init__` or has such a class above it. -/
structure Scope.HidesInit (globals : Scope) (cls : Name) : Prop where
  knows : globals.hierarchy.knows cls = true
  mem : initName ∈ globals.hierarchy.lineage cls

/-! ### Constructors -/

namespace Program.Resolved

theorem constructor (hp : p.Resolved globals) (hover : p.Overrides globals) {x : Name}
    (hx : globals.hierarchy.knows x = true) (hinit : initName ∉ globals.hierarchy.lineage x) :
    ∃ init t ts, globals.member? x initName = some (.func init) ∧ init.params = t :: ts := by
  have hobject : globals.member? (txt "object") initName =
      some (.func ⟨[.object], .noneType⟩) := by
    rw [hp.member?_object]
    rfl
  refine hp.class_induction (motive := fun x => initName ∉ globals.hierarchy.lineage x →
    ∃ init t ts, globals.member? x initName = some (.func init) ∧ init.params = t :: ts)
      ?_ ?_ ?_ hx hinit
  · exact fun _ => ⟨_, _, _, hobject, rfl⟩
  · intro y hy _
    rw [hp.member?_special hy]
    exact ⟨_, _, _, hobject, rfl⟩
  · intro c hc _ ih hnot
    rw [hp.lineage_class hc, List.mem_cons, not_or] at hnot
    obtain ⟨hself, hsuper⟩ := hnot
    obtain ⟨init, t, ts, hinherited, hparams⟩ := ih hsuper
    -- an attribute cannot take the place of the constructor of the superclass
    by_cases hown : ∃ m ∈ c.members, m.ident.name = initName
    · obtain ⟨m, hm, hname⟩ := hown
      cases m with
      | attr d =>
        have hnone := hover.attr hc hm
        rw [show d.name = initName from hname, hinherited] at hnone
        cases hnone
      | method f =>
        have hmember := hp.member?_method hc hm
        rw [show f.name = initName from hname] at hmember
        have hhead : f.ty.params.head? = some (.cls c.name) := (hover c hc _ hm).1
        obtain ⟨ts', hown⟩ := List.head?_eq_some_iff.1 hhead
        exact ⟨f.ty, _, ts', hmember, hown⟩
    · rw [hp.member?_inherited hc hself fun m hm hmx => hown ⟨m, hm, hmx⟩]
      exact ⟨init, t, ts, hinherited, hparams⟩

/-- A name that is bound to a class is the name of that class. -/
theorem name_eq (hp : p.Resolved globals) {x : Name} {cls : ClassTy}
    (hx : globals.entries.get? x = some (.cls cls)) :
    cls.name = x ∧ globals.hierarchy.knows x = true := by
  have hbuiltin : ∀ b ∈ Scope.builtins.entries, ∀ cls ∈ b.2.class?, cls.name = b.1 := by decide
  have hknows : globals.hierarchy.knows x = true := by
    rw [Hierarchy.knows, hp.declared.super?, hx]
    rfl
  rcases hp.declared.get?_cls hx with hb | ⟨c, -, rfl, rfl⟩
  · exact ⟨hbuiltin _ hb cls rfl, hknows⟩
  · exact ⟨rfl, hknows⟩

end Program.Resolved

/-! ### What a context sees -/

/-- The tables of the context bind a name to a class only where the program does. -/
structure Typing.Context.Sees (globals : Scope) (c : Context) : Prop where
  globals_eq : c.globals = globals
  cls : ∀ x cls, c.env.get? x = some (.cls cls) → globals.entries.get? x = some (.cls cls)

namespace Typing.Context.Sees

theorem ofGlobals (globals : Scope) : (Context.ofGlobals globals).Sees globals := by
  refine ⟨rfl, fun x cls h => ?_⟩
  rw [Context.ofGlobals, Env.get?_cons] at h
  simpa [Env.get?] using h

/-- A function binds no class. -/
theorem enter (h : c.Sees globals) (f : FuncDef) (global outer : Values) :
    (c.enter (f.scope global outer)).Sees globals := by
  refine ⟨h.globals_eq, fun x cls hx => ?_⟩
  rw [Context.enter, Env.get?_cons, FuncDef.scope_entries] at hx
  cases hget : (f.table global outer).get? x with
  | none =>
    rw [hget, Option.none_or] at hx
    exact h.cls x cls hx
  | some e =>
    rw [hget, Option.some_or] at hx
    cases hx
    have hmem := Bindings.mem_of_get? hget
    simp only [FuncDef.table, FuncDef.values, List.mem_append, List.mem_map, List.mem_filterMap,
      List.mem_singleton] at hmem
    rcases hmem with ((⟨v, -, hv⟩ | ⟨d, -, hd⟩) | hret) | ⟨g, -, hg⟩
    · cases hv
    · cases d with
      | var d => cases hd
      | global _ _ | «nonlocal» _ _ =>
        obtain ⟨t, -, ht⟩ := Option.map_eq_some_iff.1 hd
        cases ht
      | func g => cases hd
    · cases hret
    · cases hg

theorem calleesEnd (h : c.Sees globals) (hp : p.Resolved globals) (hover : p.Overrides globals) :
    CalleesEnd globals.HidesInit c := by
  intro x
  unfold callee
  split
  · trivial
  · rename_i cls hcls
    obtain ⟨hname, hknows⟩ := hp.name_eq (h.cls x cls hcls)
    rw [Context.member?, h.globals_eq, hname]
    by_cases hinit : initName ∈ globals.hierarchy.lineage x
    · split
      · trivial
      · split
        · split
          · trivial
          · exact ⟨hknows, hinit⟩
        · exact ⟨hknows, hinit⟩
    · obtain ⟨init, t, ts, hmember, hparams⟩ := hp.constructor hover hknows hinit
      rw [hmember]
      dsimp only
      rw [hparams]
      split <;> trivial
  · trivial

end Typing.Context.Sees

/-! ### Declarations -/

variable {isClass : Name → Bool} {global : Values}

mutual

theorem FuncDef.check_ends (hp : p.Resolved globals) (hover : p.Overrides globals) :
    ∀ (f : FuncDef) {c : Context} {outer : Values}, c.Sees globals →
      f.Declared isClass global outer →
      Ends globals.HidesInit (f.erase.check c (some (f.scope global outer)))
        (Fills FuncDef.erase FuncDef.slots f)
  | .mk loc id ps ret? decls body, c, outer, hc, hf => by
    have henter := hc.enter (.mk loc id ps ret? decls body) global outer
    simp only [FuncDef.erase, FuncDef.check, ends_bind]
    have hinner := LocalDecl.checkAll_ends hp hover decls henter fun g hg =>
      ⟨_, hf.child? hg, hf.inner hg⟩
    refine hinner.mono fun decls' hdecls => ?_
    refine (Stmt.checkAll_ends (henter.calleesEnd hp hover) body).mono fun body' hbody => ?_
    rw [ends_pure]
    refine ⟨by simp only [FuncDef.erase, hdecls.erase, hbody.erase], ?_⟩
    simpa only [FuncDef.slots, List.forall_mem_append] using ⟨hdecls.filled, hbody.filled⟩

theorem LocalDecl.checkAll_ends (hp : p.Resolved globals) (hover : p.Overrides globals) :
    ∀ (ds : List LocalDecl) {c : Context} {scope : Scope}, c.Sees globals →
      (∀ g, .func g ∈ ds → ∃ outer, scope.child? g.name = some (g.scope global outer) ∧
        g.Declared isClass global outer) →
      Ends globals.HidesInit (LocalDecl.checkAll c scope (LocalDecl.eraseAll ds))
        (Fills LocalDecl.eraseAll LocalDecl.allSlots ds)
  | [], c, scope, _, _ =>
    ⟨rfl, by simp only [LocalDecl.allSlots, List.not_mem_nil, false_imp_iff, implies_true]⟩
  | .var d :: ds, c, scope, hc, hds => by
    have hrest := LocalDecl.checkAll_ends hp hover ds hc fun g hg =>
      hds g (List.mem_cons_of_mem _ hg)
    simp only [LocalDecl.eraseAll, LocalDecl.erase, LocalDecl.checkAll, ends_bind]
    refine (checkVarDef_ends c.hierarchy scope.entries d).mono fun d' hd => ?_
    refine hrest.mono fun ds' hds => ?_
    rw [ends_pure]
    refine ⟨by simp only [LocalDecl.eraseAll, LocalDecl.erase, hd.erase, hds.erase], ?_⟩
    simpa only [LocalDecl.allSlots, List.forall_mem_append] using ⟨hd.filled, hds.filled⟩
  | .func f :: ds, c, scope, hc, hds => by
    obtain ⟨outer, hchild, hf⟩ := hds f List.mem_cons_self
    have hrest := LocalDecl.checkAll_ends hp hover ds hc fun g hg =>
      hds g (List.mem_cons_of_mem _ hg)
    simp only [LocalDecl.eraseAll, LocalDecl.erase, LocalDecl.checkAll, ends_bind]
    rw [FuncDef.name, FuncDef.ident_erase, ← FuncDef.name, hchild]
    refine (FuncDef.check_ends hp hover f hc hf).mono fun f' hf' => ?_
    refine hrest.mono fun ds' hds => ?_
    rw [ends_pure]
    refine ⟨by simp only [LocalDecl.eraseAll, LocalDecl.erase, hf'.erase, hds.erase], ?_⟩
    simpa only [LocalDecl.allSlots, List.forall_mem_append] using ⟨hf'.filled, hds.filled⟩
  | .global loc id :: ds, c, scope, hc, hds | .nonlocal loc id :: ds, c, scope, hc, hds => by
    have hrest := LocalDecl.checkAll_ends hp hover ds hc fun g hg =>
      hds g (List.mem_cons_of_mem _ hg)
    simp only [LocalDecl.eraseAll, LocalDecl.erase, LocalDecl.checkAll, ends_bind]
    refine hrest.mono fun ds' hds => ?_
    rw [ends_pure]
    refine ⟨by simp only [LocalDecl.eraseAll, LocalDecl.erase, hds.erase], ?_⟩
    simpa only [LocalDecl.allSlots] using hds.filled

end

namespace Typing

/-- What each element ends in, element by element. -/
theorem Ends.mapM {α β γ : Type} {bad : Name → Prop} {f : β → Typing γ} {g : α → β}
    {R : α → γ → Prop} : ∀ {xs : List α}, (∀ x ∈ xs, Ends bad (f (g x)) (R x)) →
      Ends bad ((xs.map g).mapM f) (List.Forall₂ R xs)
  | [], _ => .nil
  | x :: xs, h => by
    obtain ⟨hx, hxs⟩ := List.forall_mem_cons.1 h
    rw [List.map_cons, List.mapM_cons, ends_bind]
    refine hx.mono fun y hy => ?_
    rw [ends_bind]
    refine (Ends.mapM hxs).mono fun ys hys => ?_
    rw [ends_pure]
    exact .cons hy hys

theorem Fills.all {τ : Type} {erase : τ → τ} {slots : τ → List Slot} {ts ts' : List τ}
    (h : List.Forall₂ (Fills erase slots) ts ts') :
    Fills (List.map erase) (List.flatMap slots) ts ts' := by
  refine ⟨map_eq_map_of_forall₂ (h.imp fun _ _ h => h.erase), ?_⟩
  have hfilled := forall_right_of_forall₂ (h.imp fun _ _ h => h.filled)
  simpa only [List.forall_mem_flatMap] using hfilled

theorem checkMember_ends (hp : p.Resolved globals) (hover : p.Overrides globals)
    (hc : c.Sees globals) {d : ClassDef} (hd : .cls d ∈ p.decls) {m : Member}
    (hm : m ∈ d.members) :
    Ends globals.HidesInit (checkMember c (d.scope globals.entries.value?) m.erase)
      (Fills Member.erase Member.slots m) := by
  have hdeclared := (hp.declared.cls d hd).2
  cases m with
  | attr v =>
    simp only [Member.erase, checkMember, ends_bind]
    refine (checkVarDef_ends _ _ v).mono fun v' hv => ?_
    rw [ends_pure]
    exact ⟨by simp only [Member.erase, hv.erase], hv.filled⟩
  | method f =>
    simp only [Member.erase, checkMember, ends_bind]
    rw [FuncDef.name, FuncDef.ident_erase, ← FuncDef.name, hdeclared.child? hm]
    refine (FuncDef.check_ends hp hover f hc (hdeclared.methods f hm)).mono fun f' hf => ?_
    rw [ends_pure]
    exact ⟨by simp only [Member.erase, hf.erase], hf.filled⟩

theorem checkTop_ends (hp : p.Resolved globals) (hover : p.Overrides globals)
    (hc : c.Sees globals) {d : TopDecl} (hd : d ∈ p.decls) :
    Ends globals.HidesInit (checkTop c d.erase) (Fills TopDecl.erase TopDecl.slots d) := by
  cases d with
  | var v =>
    simp only [TopDecl.erase, checkTop, ends_bind]
    refine (checkVarDef_ends _ _ v).mono fun v' hv => ?_
    rw [ends_pure]
    exact ⟨by simp only [TopDecl.erase, hv.erase], hv.filled⟩
  | func f =>
    obtain ⟨hchild, hf⟩ := hp.declared.func f hd
    simp only [TopDecl.erase, checkTop, ends_bind]
    rw [FuncDef.name, FuncDef.ident_erase, ← FuncDef.name, hc.globals_eq, hchild]
    refine (FuncDef.check_ends hp hover f hc hf).mono fun f' hf' => ?_
    rw [ends_pure]
    exact ⟨by simp only [TopDecl.erase, hf'.erase], hf'.filled⟩
  | cls k =>
    have hchild : c.globals.child? k.name = some (k.scope globals.entries.value?) := by
      rw [hc.globals_eq]
      exact (hp.declared.cls k hd).1
    simp only [TopDecl.erase, checkTop, ClassDef.erase, ClassDef.name] at hchild ⊢
    rw [hchild]
    simp only [ends_bind]
    refine (Ends.mapM fun m hm => checkMember_ends hp hover hc hd hm).mono fun ms hms => ?_
    have hall := Fills.all hms
    rw [ends_pure]
    exact ⟨by simp only [TopDecl.erase, ClassDef.erase, hall.erase], hall.filled⟩

end Typing

theorem Program.check_ends (hp : p.Resolved globals) (hover : p.Overrides globals) :
    Typing.Ends globals.HidesInit (p.erase.check globals) (Fills Program.erase Program.slots p) := by
  have hc := Context.Sees.ofGlobals globals
  simp only [Program.erase, Program.check, ends_bind]
  refine (Typing.Ends.mapM fun d hd => checkTop_ends hp hover hc hd).mono fun ds hds => ?_
  refine (Stmt.checkAll_ends (hc.calleesEnd hp hover) p.body).mono fun body hbody => ?_
  have hall := Fills.all hds
  rw [ends_pure]
  refine ⟨by simp only [Program.erase, hall.erase, hbody.erase], ?_⟩
  simpa only [Program.slots, List.forall_mem_append] using ⟨hall.filled, hbody.filled⟩

/-- Only a class of the program can be called `__init__`. -/
theorem Scope.HidesInit.exists_class {cls : Name} (h : globals.HidesInit cls)
    (hp : p.Resolved globals) : ∃ c, .cls c ∈ p.decls ∧ c.name = initName := by
  have hspecial : initName ∉ specialClasses := by decide
  obtain ⟨super?, hsuper⟩ := Option.isSome_iff_exists.1 ((hp.line h.knows).knows_of_mem h.mem)
  rcases hp.declared.super?_cases hsuper with ⟨hname, -⟩ | ⟨hmem, -⟩ | ⟨c, hc, hname, -⟩
  · exact absurd hname (by decide)
  · exact absurd hmem hspecial
  · exact ⟨c, hc, hname.symm⟩

/-- However ill-typed, a parsed program whose declarations are in order is checked to the end, and
then each of its slots, which were empty, has been written once. Only the constructor of a class
that is called `__init__`, or has such a class above it, stops the check. -/
theorem checking_fills {source : Bytes} (hparse : parse source = .ok p)
    (hdeclare : p.declare = ⟨globals, []⟩) :
    (∃ q ds, (p.check globals).run = ⟨.ok q, ds⟩ ∧ q.erase = p ∧ ∀ s ∈ q.slots, s.Filled) ∨
      ∃ cls ds, (p.check globals).run = ⟨.error (.constructor cls), ds⟩ ∧
        initName ∈ globals.hierarchy.lineage cls ∧ ∃ c, .cls c ∈ p.decls ∧ c.name = initName := by
  have hvalid := parse_valid hparse
  have hp := Program.resolved hvalid hdeclare
  have hends := Program.check_ends hp (Program.overrides hvalid hdeclare)
  have herase := erase_of_parse hparse
  rw [herase, Ends] at hends
  rcases hrun : (p.check globals).run with ⟨result, ds⟩
  rw [hrun] at hends
  cases result with
  | ok q =>
    exact .inl ⟨q, ds, rfl, hends.erase.trans herase, hends.filled⟩
  | error e =>
    cases e with
    | slot e => exact hends.elim
    | constructor cls => exact .inr ⟨cls, ds, rfl, hends.mem, hends.exists_class hp⟩

/-- Hardly an expression of this text is well typed. -/
def illTyped : Bytes :=
  txt "class A(object):\n  n:int = \"a\"\n  def m(self:A, k:int)->int:\n" ++
    txt "    return self.q + k\nA(1).m(None) + True\nA().x = foo([1][\"b\"])\nint()\n"

theorem illTyped_fills : ∃ p globals q ds, parse illTyped = .ok p ∧ p.declare = ⟨globals, []⟩ ∧
    (p.check globals).run = ⟨.ok q, ds⟩ ∧ ds ≠ [] ∧ q.erase = p ∧ ∀ s ∈ q.slots, s.Filled := by
  have hrun : (parse illTyped).toOption.any (fun p => p.declare.diagnostics = [] ∧
      (p.check p.declare.value).run.diagnostics ≠ [] ∧
      (p.decls.filterMap TopDecl.class?).map ClassDef.name = [txt "A"]) = true := by decide +kernel
  obtain ⟨p, hparse, hprop⟩ := ok_of_any hrun
  obtain ⟨hreports, hfound, hclasses⟩ := of_decide_eq_true hprop
  have hdeclare : p.declare = ⟨p.declare.value, []⟩ := by
    rw [← hreports]
  rcases checking_fills hparse hdeclare with
    ⟨q, ds, hq, herase, hfilled⟩ | ⟨cls, ds, -, -, c, hc, hname⟩
  · rw [hq] at hfound
    exact ⟨p, _, q, ds, hparse, hdeclare, hq, hfound, herase, hfilled⟩
  · have hmem : c.name ∈ (p.decls.filterMap TopDecl.class?).map ClassDef.name :=
      List.mem_map_of_mem (List.mem_filterMap.2 ⟨_, hc, rfl⟩)
    rw [hclasses, hname] at hmem
    exact absurd hmem (by decide)

/-- The constructor of a class that is called `__init__` is hidden by the class itself. -/
def hiddenInit : Bytes := txt "class __init__(object):\n  pass\n__init__()\n"

theorem hiddenInit_stops : ∃ p globals ds, parse hiddenInit = .ok p ∧
    p.declare = ⟨globals, []⟩ ∧ (p.check globals).run = ⟨.error (.constructor initName), ds⟩ := by
  have hrun : (parse hiddenInit).toOption.any (fun p => p.declare.diagnostics.isEmpty &&
      match (p.check p.declare.value).run.value with
      | .error e => e = .constructor initName
      | .ok _ => false) = true := by decide +kernel
  obtain ⟨p, hparse, hprop⟩ := ok_of_any hrun
  obtain ⟨hreports, hstops⟩ := Bool.and_eq_true_iff.1 hprop
  have hdeclare : p.declare = ⟨p.declare.value, []⟩ := by
    rw [← List.isEmpty_iff.1 hreports]
  rcases hcheck : (p.check p.declare.value).run with ⟨result, ds⟩
  rw [hcheck] at hstops
  cases result with
  | ok q => cases hstops
  | error e =>
    obtain rfl := of_decide_eq_true hstops
    exact ⟨p, _, ds, hparse, hdeclare, hcheck⟩

end ChocoRv
