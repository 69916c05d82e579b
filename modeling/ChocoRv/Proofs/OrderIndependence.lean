import ChocoRv.Proofs.Accepted
import ChocoRv.Proofs.ReorderedScopes

/-!
# The order of declarations

Analysis accepts a parsed program or rejects it whatever the order of its declarations
(`passes_in_any_order`). The passes over the declarations leave scopes that tell the same; the type
checker only asks contexts (`Context.Agrees`), so it gives the same answer on a body, and it checks
declarations one by one (`FuncDef.Checks`).
-/

namespace ChocoRv

namespace Typing

/-! ### Contexts that answer alike -/

/-- Whatever the type checker asks of the contexts, it gets the same answer. -/
structure Context.Agrees (c c' : Context) : Prop where
  hierarchy : c'.hierarchy = c.hierarchy
  get? : c'.env.get? = c.env.get?
  classOf? : c'.classOf? = c.classOf?
  member? : c'.member? = c.member?
  top : c'.top = c.top
  ret? : c'.ret? = c.ret?

namespace Context.Agrees

variable {c c' : Context}

theorem ofGlobals {s s' : Scope} (h : s.Agrees s') : (ofGlobals s).Agrees (ofGlobals s') where
  hierarchy := h.hierarchy
  get? := by
    funext x
    show Env.get? [s'.entries] x = Env.get? [s.entries] x
    simp only [Env.get?, List.findSome?_cons, h.get?]
  classOf? := by
    funext t
    cases t with
    | cls x => exact congrArg (Option.bind · Entry.class?) (congrFun h.get? x)
    | noneType | emptyList | list => rfl
  member? := by
    funext cls x
    exact congrFun (h.memberTables cls.name) x
  top := rfl
  ret? := rfl

theorem enter (h : c.Agrees c') {s s' : Scope} (hs : s'.entries.get? = s.entries.get?) :
    (c.enter s).Agrees (c'.enter s') where
  hierarchy := h.hierarchy
  get? := by
    funext x
    show Env.get? (s'.entries :: c'.env) x = Env.get? (s.entries :: c.env) x
    have henv := congrFun h.get? x
    rw [Env.get?, Env.get?] at henv
    rw [Env.get?, Env.get?, List.findSome?_cons, List.findSome?_cons, hs, henv]
  classOf? := h.classOf?
  member? := h.member?
  top := rfl
  ret? := by
    show s'.entries.value? returnEntry = s.entries.value? returnEntry
    rw [Bindings.value?, Bindings.value?, hs]

theorem checkName (h : c.Agrees c') (id : Ident) : checkName c' id = checkName c id := by
  rw [Typing.checkName, Typing.checkName, h.get?]

theorem callee (h : c.Agrees c') (x : Name) : callee c' x = callee c x := by
  rw [Typing.callee, Typing.callee, h.get?, h.member?]

theorem method? (h : c.Agrees c') (t : Ty) (x : Name) : method? c' t x = method? c t x := by
  rw [Typing.method?, Typing.method?, h.classOf?, h.member?]

theorem checkReturn (h : c.Agrees c') (loc : Loc) (value? : Option (Loc × Ty)) :
    checkReturn c' loc value? = checkReturn c loc value? := by
  rw [Typing.checkReturn, Typing.checkReturn, h.top, h.ret?, h.hierarchy]

end Context.Agrees

end Typing

open Typing

section

variable {c c' : Context}

mutual

theorem Expr.check_congr (h : c.Agrees c') : ∀ e : Expr, e.check c' = e.check c
  | .lit l => rfl
  | .name id => by rw [Expr.check, Expr.check, h.checkName]
  | .unary m op e => by simp only [Expr.check, Expr.check_congr h e]
  | .binary m l op r => by
    rw [Expr.check, Expr.check, Expr.check_congr h l, Expr.check_congr h r, h.hierarchy]
  | .cond m test yes no => by
    rw [Expr.check, Expr.check, Expr.check_congr h test, Expr.check_congr h yes,
      Expr.check_congr h no, h.hierarchy]
  | .list m elems => by rw [Expr.check, Expr.check, Expr.checkAll_congr h elems, h.hierarchy]
  | .index m seq i => by rw [Expr.check, Expr.check, Expr.check_congr h seq, Expr.check_congr h i]
  | .member m object id => by
    rw [Expr.check, Expr.check, Expr.check_congr h object, h.classOf?, h.member?]
  | .call m id args => by
    rw [Expr.check, Expr.check, h.callee, Expr.checkAll_congr h args, h.hierarchy]
  | .methodCall m method object id args => by
    rw [Expr.check, Expr.check, Expr.check_congr h object, Expr.checkAll_congr h args, h.hierarchy]
    simp only [h.method?]

theorem Expr.checkAll_congr (h : c.Agrees c') : ∀ es : List Expr,
    Expr.checkAll c' es = Expr.checkAll c es
  | [] => rfl
  | e :: es => by
    rw [Expr.checkAll, Expr.checkAll, Expr.check_congr h e, Expr.checkAll_congr h es]

end

theorem checkTargets_congr (h : c.Agrees c') (t : Ty) : ∀ targets : List Expr,
    checkTargets c' t targets = checkTargets c t targets
  | [] => rfl
  | target :: rest => by
    rw [checkTargets, checkTargets, Expr.check_congr h target, checkTargets_congr h t rest,
      h.hierarchy]

theorem checkCondition_congr (h : c.Agrees c') (e : Expr) :
    checkCondition c' e = checkCondition c e := by
  rw [checkCondition, checkCondition, Expr.check_congr h e]

mutual

theorem Stmt.check_congr (h : c.Agrees c') : ∀ s : Stmt, s.check c' = s.check c
  | .expr loc e => by rw [Stmt.check, Stmt.check, Expr.check_congr h e]
  | .assign loc targets value => by
    rw [Stmt.check, Stmt.check, Expr.check_congr h value]
    simp only [checkTargets_congr h]
  | .ite loc test yes no => by
    rw [Stmt.check, Stmt.check, checkCondition_congr h, Stmt.checkAll_congr h yes,
      Stmt.checkAll_congr h no]
  | .loop loc test body => by
    rw [Stmt.check, Stmt.check, checkCondition_congr h, Stmt.checkAll_congr h body]
  | .each loc id iterable body => by
    rw [Stmt.check, Stmt.check, Expr.check_congr h iterable, h.checkName,
      Stmt.checkAll_congr h body, h.hierarchy]
  | .ret loc none => by rw [Stmt.check, Stmt.check, h.checkReturn]
  | .ret loc (some e) => by
    rw [Stmt.check, Stmt.check, Expr.check_congr h e]
    simp only [h.checkReturn]

theorem Stmt.checkAll_congr (h : c.Agrees c') : ∀ ss : List Stmt,
    Stmt.checkAll c' ss = Stmt.checkAll c ss
  | [] => rfl
  | s :: ss => by
    rw [Stmt.checkAll, Stmt.checkAll, Stmt.check_congr h s, Stmt.checkAll_congr h ss]

end

end

/-! ### Checks that pass -/

namespace Typing

variable {α β γ : Type}

/-- The computation ends and reports nothing. -/
def Passes (x : Typing α) : Prop := ∃ a, Gives x a

theorem passes_pure (a : α) : Passes (pure a : Typing α) := ⟨a, gives_pure.2 rfl⟩

theorem passes_map {x : Typing α} {g : α → β} : Passes (do return g (← x)) ↔ Passes x := by
  simp only [Passes, gives_bind, gives_pure]
  constructor
  · rintro ⟨_, a, ha, -⟩
    exact ⟨a, ha⟩
  · rintro ⟨a, ha⟩
    exact ⟨_, a, ha, rfl⟩

theorem passes_map₂ {x : Typing α} {y : Typing β} {g : α → β → γ} :
    Passes (do let a ← x; return g a (← y)) ↔ Passes x ∧ Passes y := by
  simp only [Passes, gives_bind, gives_pure]
  constructor
  · rintro ⟨_, a, ha, b, hb, -⟩
    exact ⟨⟨a, ha⟩, b, hb⟩
  · rintro ⟨⟨a, ha⟩, b, hb⟩
    exact ⟨_, a, ha, b, hb, rfl⟩

theorem passes_mapM {f : α → Typing β} {xs : List α} :
    Passes (xs.mapM f) ↔ ∀ x ∈ xs, Passes (f x) := by
  induction xs with
  | nil => simp [Passes]
  | cons x xs ih => rw [List.mapM_cons, passes_map₂, ih, List.forall_mem_cons]

theorem checkVarDef_congr {h : Hierarchy} {table table' : Bindings Entry}
    (hget : table'.get? = table.get?) (d : VarDef) :
    checkVarDef h table' d = checkVarDef h table d := by
  rw [checkVarDef, checkVarDef, Bindings.value?, Bindings.value?, hget]

end Typing

theorem LocalDecl.passes_checkAll {c : Context} {scope : Scope} {ds : List LocalDecl} :
    Passes (LocalDecl.checkAll c scope ds) ↔
      (∀ d, .var d ∈ ds → Passes (checkVarDef c.hierarchy scope.entries d)) ∧
        ∀ g, .func g ∈ ds → Passes (g.check c (scope.child? g.name)) := by
  induction ds with
  | nil => simp [LocalDecl.checkAll, passes_pure]
  | cons d ds ih =>
    cases d with
    | var d =>
      rw [LocalDecl.checkAll, passes_map₂, ih]
      simp [and_assoc]
    | func g =>
      rw [LocalDecl.checkAll, passes_map₂, ih]
      simp [and_left_comm]
    | global | «nonlocal» =>
      rw [LocalDecl.checkAll, passes_map, ih]
      simp

mutual

/-- A property that passes from the functions in a function to the function. -/
theorem FuncDef.induction {motive : FuncDef → Prop}
    (step : ∀ f : FuncDef, (∀ g, .func g ∈ f.decls → motive g) → motive f) : ∀ f, motive f
  | .mk _ _ _ _ decls _ => step _ (LocalDecl.induction step decls)

theorem LocalDecl.induction {motive : FuncDef → Prop}
    (step : ∀ f : FuncDef, (∀ g, .func g ∈ f.decls → motive g) → motive f) :
    ∀ (ds : List LocalDecl) (g : FuncDef), .func g ∈ ds → motive g
  | [], g, hg => by simp at hg
  | .func f :: ds, g, hg => by
    rcases List.mem_cons.1 hg with heq | hg
    · cases heq
      exact FuncDef.induction step f
    · exact LocalDecl.induction step ds g hg
  | .var _ :: ds, g, hg | .global _ _ :: ds, g, hg | .nonlocal _ _ :: ds, g, hg => by
    rcases List.mem_cons.1 hg with heq | hg
    · cases heq
    · exact LocalDecl.induction step ds g hg

end

/-- The checks of a function and of the functions in it pass, each in the scope that its
declarations spell out. -/
inductive FuncDef.Checks (global : Values) : Context → Values → FuncDef → Prop
  | mk {c : Context} {outer : Values} {f : FuncDef}
      (vars : ∀ d, .var d ∈ f.decls → Passes (checkVarDef c.hierarchy (f.table global outer) d))
      (body : Passes (Stmt.checkAll (c.enter (f.scope global outer)) f.body))
      (inner : ∀ g, .func g ∈ f.decls →
        Checks global (c.enter (f.scope global outer)) (f.values global outer).value? g) :
      Checks global c outer f

section

variable {isClass : Name → Bool} {global outer : Values} {c c' : Context} {f f' : FuncDef}

theorem FuncDef.passes_check (h : f.Declared isClass global outer) :
    Passes (f.check c (some (f.scope global outer))) ↔ FuncDef.Checks global c outer f := by
  induction f using FuncDef.induction generalizing c outer with
  | step f ih =>
    have hinner : ∀ g, .func g ∈ f.decls →
        (Passes (g.check (c.enter (f.scope global outer)) ((f.scope global outer).child? g.name)) ↔
          FuncDef.Checks global (c.enter (f.scope global outer)) (f.values global outer).value? g) :=
      fun g hg => by rw [h.child? hg, ih g hg (h.inner hg)]
    have hcheck : Passes (f.check c (some (f.scope global outer))) ↔
        Passes (LocalDecl.checkAll (c.enter (f.scope global outer)) (f.scope global outer) f.decls) ∧
          Passes (Stmt.checkAll (c.enter (f.scope global outer)) f.body) := by
      cases f
      rw [FuncDef.check, passes_map₂]
      rfl
    rw [hcheck, LocalDecl.passes_checkAll, FuncDef.scope_entries]
    constructor
    · rintro ⟨⟨hvars, hfuncs⟩, hbody⟩
      exact .mk hvars hbody fun g hg => (hinner g hg).1 (hfuncs g hg)
    · rintro ⟨hvars, hbody, hfuncs⟩
      exact ⟨⟨hvars, fun g hg => (hinner g hg).2 (hfuncs g hg)⟩, hbody⟩

theorem FuncDef.Reordered.checks (h : f.Reordered f') (hchecks : FuncDef.Checks global c outer f)
    (hdeclared : f.Declared isClass global outer) (hvalid : f.Valid) (hc : c.Agrees c') :
    FuncDef.Checks global c' outer f' := by
  induction hchecks generalizing f' c' with
  | @mk c outer f vars body inner ih =>
    have hget := h.get?_table hdeclared hvalid
    have henter : (c.enter (f.scope global outer)).Agrees (c'.enter (f'.scope global outer)) := by
      refine hc.enter ?_
      rw [FuncDef.scope_entries, FuncDef.scope_entries, hget]
    refine .mk (fun d hd => ?_) ?_ fun g' hg' => ?_
    · obtain ⟨d₀, hd₀, hreordered⟩ := h.decls.exists_of_mem hd
      cases hreordered
      rw [checkVarDef_congr hget, hc.hierarchy]
      exact vars d hd₀
    · rw [h.body, Stmt.checkAll_congr henter]
      exact body
    · obtain ⟨g, hg, hreordered⟩ := h.decls.exists_func hg'
      rw [h.value?_values hdeclared hvalid]
      exact ih g hg hreordered (hdeclared.inner hg) (hvalid.decls _ hg) henter

end

/-! ### Programs -/

section

variable {globals globals' : Scope} {p p' : Program}

/-- A function that is checked in its scope is checked in another order, too. -/
theorem FuncDef.Reordered.passes {isClass isClass' : Name → Bool} {f f' : FuncDef}
    (h : f.Reordered f') (hagrees : globals.Agrees globals')
    (hdeclared : f.Declared isClass globals.entries.value? noOuter)
    (hdeclared' : f'.Declared isClass' globals'.entries.value? noOuter) (hvalid : f.Valid)
    (hf : Passes (f.check (.ofGlobals globals) (some (f.scope globals.entries.value? noOuter)))) :
    Passes (f'.check (.ofGlobals globals')
      (some (f'.scope globals'.entries.value? noOuter))) := by
  rw [FuncDef.passes_check hdeclared] at hf
  rw [FuncDef.passes_check hdeclared', hagrees.value?]
  exact h.checks hf hdeclared hvalid (.ofGlobals hagrees)

theorem ClassDef.Reordered.passes {c c' : ClassDef} (h : c.Reordered c')
    (hagrees : globals.Agrees globals') (hc : .cls c ∈ p.decls) (hc' : .cls c' ∈ p'.decls)
    (hp : p.Declared globals) (hp' : p'.Declared globals') (hvalid : p.Valid)
    (hpass : Passes (checkTop (.ofGlobals globals) (.cls c))) :
    Passes (checkTop (.ofGlobals globals') (.cls c')) := by
  obtain ⟨hchild, hdeclared⟩ := hp.cls c hc
  obtain ⟨hchild', hdeclared'⟩ := hp'.cls c' hc'
  have hget : (c'.scope globals'.entries.value?).entries.get? =
      (c.scope globals.entries.value?).entries.get? := by
    have hsame := hagrees.child c.name
    rw [← h.name, hchild', h.name, hchild] at hsame
    exact Option.some.inj hsame
  simp only [checkTop, Context.ofGlobals, hchild, hchild'] at hpass ⊢
  rw [passes_map, passes_mapM] at hpass ⊢
  intro m' hm'
  obtain ⟨m, hm, hreordered⟩ := h.members.exists_of_mem hm'
  have hm₀ := hpass m hm
  cases hreordered with
  | attr d =>
    rw [checkMember, passes_map] at hm₀ ⊢
    rw [checkVarDef_congr hget, hagrees.hierarchy]
    exact hm₀
  | @method f f' hff' =>
    rw [checkMember, passes_map] at hm₀ ⊢
    rw [hdeclared'.child? hm']
    rw [hdeclared.child? hm] at hm₀
    exact hff'.passes hagrees (hdeclared.methods f hm) (hdeclared'.methods f' hm')
      ((hvalid.1 _ hc).2.2 _ hm) hm₀

theorem TopDecl.Reordered.passes {d d' : TopDecl} (h : d.Reordered d')
    (hagrees : globals.Agrees globals') (hd : d ∈ p.decls) (hd' : d' ∈ p'.decls)
    (hp : p.Declared globals) (hp' : p'.Declared globals') (hvalid : p.Valid)
    (hpass : Passes (checkTop (.ofGlobals globals) d)) :
    Passes (checkTop (.ofGlobals globals') d') := by
  cases h with
  | var d =>
    rw [checkTop, passes_map] at hpass ⊢
    rw [(Context.Agrees.ofGlobals hagrees).hierarchy]
    exact (checkVarDef_congr hagrees.get? d) ▸ hpass
  | @func f f' hff' =>
    obtain ⟨hchild, hdeclared⟩ := hp.func f hd
    obtain ⟨hchild', hdeclared'⟩ := hp'.func f' hd'
    rw [checkTop, passes_map] at hpass ⊢
    rw [Context.ofGlobals] at hpass ⊢
    simp only [hchild, hchild'] at hpass ⊢
    exact hff'.passes hagrees hdeclared hdeclared' (hvalid.1 _ hd) hpass
  | cls hcc' => exact hcc'.passes hagrees hd hd' hp hp' hvalid hpass

end

/-- Analysis of the program ends and reports no error. -/
def Program.Passes (p : Program) : Prop := ∃ a, p.analyze = .ok a ∧ a.diagnostics = []

theorem Program.passes_iff {p : Program} :
    p.Passes ↔ ∃ globals, p.declare = ⟨globals, []⟩ ∧ Typing.Passes (p.check globals) := by
  unfold Program.Passes Program.analyze
  rcases hdeclare : p.declare with ⟨globals, ds⟩
  dsimp only
  constructor
  · rintro ⟨a, ha, hreports⟩
    split at ha
    · rename_i hds
      rcases hcheck : (p.check globals).run with ⟨result, found⟩
      rw [hcheck] at ha
      cases result with
      | error e => simp [Except.map] at ha
      | ok q =>
        cases Except.ok.inj ha
        obtain rfl : found = [] := hreports
        exact ⟨globals, by rw [List.isEmpty_iff.1 hds], q, hcheck⟩
    · rename_i hds
      cases Except.ok.inj ha
      exact absurd (List.isEmpty_iff.2 hreports) hds
  · rintro ⟨globals', heq, q, hq⟩
    cases heq
    have hcheck : (p.check globals).run = ⟨.ok q, []⟩ := hq
    rw [if_pos List.isEmpty_nil, hcheck]
    exact ⟨_, rfl, rfl⟩

theorem Program.Reordered.passes {p p' : Program} (h : p.Reordered p') (hvalid : p.Valid)
    (hpass : p.Passes) : p'.Passes := by
  rw [Program.passes_iff] at hpass ⊢
  obtain ⟨globals, hdeclare, hcheck⟩ := hpass
  obtain ⟨globals', hdeclare', hagrees⟩ := h.declare hvalid hdeclare
  have hp := Program.declared hvalid hdeclare
  have hp' := Program.declared (h.valid hvalid) hdeclare'
  refine ⟨globals', hdeclare', ?_⟩
  rw [Program.check, passes_map₂, passes_mapM] at hcheck ⊢
  refine ⟨fun d' hd' => ?_, ?_⟩
  · obtain ⟨d, hd, hreordered⟩ := h.decls.exists_of_mem hd'
    exact hreordered.passes hagrees hd hd' hp hp' hvalid (hcheck.1 d hd)
  · rw [h.body, Stmt.checkAll_congr (.ofGlobals hagrees)]
    exact hcheck.2

/-- Of a parsed program and a program with its declarations in another order analysis accepts both
or none. -/
theorem passes_in_any_order {source : Bytes} {p p' : Program} (hparse : parse source = .ok p)
    (h : p.Reordered p') : p.Passes ↔ p'.Passes :=
  have hvalid := parse_valid hparse
  ⟨h.passes hvalid, h.symm.passes (h.valid hvalid)⟩

/-! ### The opposite order -/

def FuncDef.reversed : FuncDef → FuncDef
  | .mk loc id ps ret? decls body => .mk loc id ps ret? decls.reverse body

def Member.reversed : Member → Member
  | .attr d => .attr d
  | .method f => .method f.reversed

def TopDecl.reversed : TopDecl → TopDecl
  | .var d => .var d
  | .func f => .func f.reversed
  | .cls c => .cls { c with members := c.members.reverse.map Member.reversed }

/-- The declarations of the program, and those in each of them, from last to first. -/
def Program.reversed (p : Program) : Program :=
  ⟨p.decls.reverse.map TopDecl.reversed, p.body⟩

theorem Rearranged.reverse_map {α : Type} {R : α → α → Prop} {g : α → α} (hR : ∀ x, R x (g x))
    (xs : List α) : Rearranged R xs (xs.reverse.map g) :=
  ⟨xs.reverse, xs.reverse_perm.symm, List.forall₂_map_right_iff.2
    (List.forall₂_same.2 fun x _ => hR x)⟩

theorem FuncDef.reordered_reversed (f : FuncDef) : f.Reordered f.reversed := by
  cases f
  exact .mk (.perm (List.reverse_perm _).symm)

theorem Member.reordered_reversed (m : Member) : m.Reordered m.reversed := by
  cases m with
  | attr d => exact .attr d
  | method f => exact .method f.reordered_reversed

theorem TopDecl.reordered_reversed (d : TopDecl) : d.Reordered d.reversed := by
  cases d with
  | var d => exact .var d
  | func f => exact .func f.reordered_reversed
  | cls c => exact .cls (.mk (.reverse_map Member.reordered_reversed c.members))

theorem Program.reordered_reversed {p : Program}
    (h : p.reversed.classes.map ClassDef.name = p.classes.map ClassDef.name) :
    p.Reordered p.reversed :=
  ⟨.reverse_map TopDecl.reordered_reversed p.decls, h, rfl⟩

/-- A function that uses a function, a variable and a class from below, and in it a function that
stands above the variable that it declares `nonlocal`. -/
def forwardUses : Bytes :=
  txt "def f():\n  def g():\n    nonlocal a\n    a = h(v)\n  a:A = None\n  g()\n" ++
    txt "def h(x:int)->A:\n  return A()\nv:int = 1\n" ++
    txt "class A(object):\n  def m(self:A):\n    f()\n  x:int = 2\nf()\n"

theorem forwardUses_pass : ∃ p, parse forwardUses = .ok p ∧ p.Reordered p.reversed ∧
    p.decls.map (·.ident.name) = [txt "f", txt "h", txt "v", txt "A"] ∧
      p.Passes ∧ p.reversed.Passes := by
  have hrun : (parse forwardUses).toOption.any (fun p =>
      p.decls.map (·.ident.name) = [txt "f", txt "h", txt "v", txt "A"] ∧
        p.reversed.classes.map ClassDef.name = p.classes.map ClassDef.name ∧
        p.analyze.toOption.any (·.diagnostics.isEmpty) = true) = true := by decide +kernel
  obtain ⟨p, hparse, hprop⟩ := ok_of_any hrun
  obtain ⟨hnames, hclasses, hanalyze⟩ := of_decide_eq_true hprop
  obtain ⟨a, ha, hreports⟩ := ok_of_any hanalyze
  have hpass : p.Passes := ⟨a, ha, List.isEmpty_iff.1 hreports⟩
  have hreordered := Program.reordered_reversed hclasses
  exact ⟨p, hparse, hreordered, hnames, hpass, (passes_in_any_order hparse hreordered).1 hpass⟩

end ChocoRv
