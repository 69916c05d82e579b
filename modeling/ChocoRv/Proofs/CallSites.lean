import ChocoRv.Proofs.Sites

/-!
# Call sites

The calls are sites of a body, so the code of every call has a place in the code of the body. What
a call of a name runs is what the analysis sees in the name.
-/

namespace ChocoRv

open Asm Codegen Emit

/-! ### The calls in a body -/

mutual

/-- The calls in an expression, nested ones included. -/
def Expr.calls : Expr → List Expr
  | .lit _ | .name _ => []
  | .unary _ _ e => e.calls
  | .binary _ l _ r => l.calls ++ r.calls
  | .cond _ test yes no => test.calls ++ yes.calls ++ no.calls
  | .list _ elems => Expr.allCalls elems
  | .index _ seq i => seq.calls ++ i.calls
  | .member _ object _ => object.calls
  | .call m id args => .call m id args :: Expr.allCalls args
  | .methodCall m method object id args =>
    .methodCall m method object id args :: (object.calls ++ Expr.allCalls args)

def Expr.allCalls : List Expr → List Expr
  | [] => []
  | e :: es => e.calls ++ Expr.allCalls es

end

mutual

def Stmt.calls : Stmt → List Expr
  | .expr _ e => e.calls
  | .assign _ targets value => Expr.allCalls targets ++ value.calls
  | .ite _ test yes no => test.calls ++ Stmt.allCalls yes ++ Stmt.allCalls no
  | .loop _ test body => test.calls ++ Stmt.allCalls body
  | .each _ _ iterable body => iterable.calls ++ Stmt.allCalls body
  | .ret _ none => []
  | .ret _ (some e) => e.calls

def Stmt.allCalls : List Stmt → List Expr
  | [] => []
  | s :: ss => s.calls ++ Stmt.allCalls ss

end

/-- The expression calls something. -/
def Expr.isCall : Expr → Bool
  | .call .. | .methodCall .. => true
  | _ => false

mutual

theorem Expr.calls_eq : ∀ e : Expr, e.calls = e.sites.filter Expr.isCall
  | .lit _ | .name _ => rfl
  | .unary _ _ e => e.calls_eq
  | .binary m l op r => by
    have hself : ([Expr.binary m l op r].filter Expr.isSite).filter Expr.isCall = [] := by
      rw [List.filter_filter, List.filter_eq_nil_iff]
      simp [Expr.isCall]
    rw [Expr.calls, Expr.sites, List.filter_append, List.filter_append, hself, l.calls_eq, r.calls_eq,
      List.nil_append]
  | .cond _ test yes no => by
    simp [Expr.calls, Expr.sites, Expr.isCall, test.calls_eq, yes.calls_eq, no.calls_eq]
  | .list _ elems => by
    simp [Expr.calls, Expr.sites, Expr.isCall, Expr.allCalls_eq elems]
  | .index _ seq i => by
    simp [Expr.calls, Expr.sites, seq.calls_eq, i.calls_eq]
  | .member _ object _ => object.calls_eq
  | .call _ _ args => by
    rw [Expr.calls, Expr.sites, List.filter_cons_of_pos rfl, Expr.allCalls_eq args]
  | .methodCall _ _ object _ args => by
    rw [Expr.calls, Expr.sites, List.filter_cons_of_pos rfl, List.filter_append, object.calls_eq,
      Expr.allCalls_eq args]

theorem Expr.allCalls_eq : ∀ es : List Expr,
    Expr.allCalls es = (Expr.allSites es).filter Expr.isCall
  | [] => rfl
  | e :: es => by simp [Expr.allCalls, Expr.allSites, e.calls_eq, Expr.allCalls_eq es]

end

/-- The calls in statements are the sites that are calls. -/
theorem Stmt.allCalls_eq : ∀ ss : List Stmt,
    Stmt.allCalls ss = ((Stmt.allNested ss).flatMap Stmt.sites).filter Expr.isCall
  | [] => rfl
  | .expr _ e :: ss => by
    simp [Stmt.allCalls, Stmt.calls, Stmt.allNested, Stmt.nested, Stmt.sites, e.calls_eq,
      Stmt.allCalls_eq ss]
  | .assign _ targets value :: ss => by
    simp [Stmt.allCalls, Stmt.calls, Stmt.allNested, Stmt.nested, Stmt.sites,
      Expr.allCalls_eq targets, value.calls_eq, Stmt.allCalls_eq ss]
  | .ite _ test yes no :: ss => by
    simp [Stmt.allCalls, Stmt.calls, Stmt.allNested, Stmt.nested, Stmt.sites, test.calls_eq,
      Stmt.allCalls_eq yes, Stmt.allCalls_eq no, Stmt.allCalls_eq ss]
  | .loop _ test body :: ss => by
    simp [Stmt.allCalls, Stmt.calls, Stmt.allNested, Stmt.nested, Stmt.sites, test.calls_eq,
      Stmt.allCalls_eq body, Stmt.allCalls_eq ss]
  | .each _ _ iterable body :: ss => by
    simp [Stmt.allCalls, Stmt.calls, Stmt.allNested, Stmt.nested, Stmt.sites, iterable.calls_eq,
      Stmt.allCalls_eq body, Stmt.allCalls_eq ss]
  | .ret _ none :: ss => by
    simp [Stmt.allCalls, Stmt.calls, Stmt.allNested, Stmt.nested, Stmt.sites, Stmt.allCalls_eq ss]
  | .ret _ (some e) :: ss => by
    simp [Stmt.allCalls, Stmt.calls, Stmt.allNested, Stmt.nested, Stmt.sites, e.calls_eq,
      Stmt.allCalls_eq ss]

/-! ### What a call runs -/

/-- What the call of a name runs, as code generation finds it, with the types of its arguments. -/
inductive Codegen.Context.Runs (c : Context) (p : Program) (x : Name) (params : List Ty) : Prop
  | func {s : FrameSite} {parent : Frame} (h : Frame.resolveFunc? x c.chain = some parent)
      (hs : s ∈ p.frames) (hlabel : s.frame.label = parent.childLabel x)
      (hparams : s.defn.ty.params = params)
  | constructor {layout : ClassLayout} (h : Frame.resolveFunc? x c.chain = none)
      (hlayout : ClassLayout.find? c.layouts x = some layout) (hparams : params = [])
  | builtin {l : Label} (h : Frame.resolveFunc? x c.chain = none)
      (hlayout : ClassLayout.find? c.layouts x = none) (hl : builtinFuncs.lookup x = some l)

variable {globals : Scope} {p : Program} {layouts : List ClassLayout} {b : Body} {c : Context}
  {t : Typing.Context}

theorem Codegen.Context.IsFor.runs (hc : c.IsFor globals layouts b) (hp : p.Accepted globals)
    (hover : p.Overrides globals) (hlayouts : p.layouts globals = .ok layouts) (hb : b ∈ p.bodies)
    (hglobals : t.globals = globals) (henv : t.env = tables globals b.chain) {x : Name}
    (hx : ValidName x) {entry : Entry} {params : List Ty} {result : Ty}
    (h : Typing.Gives (Typing.callee t x) (.func entry params result)) : c.Runs p x params := by
  have hmeaning : ∀ e, t.env.get? x = some e →
      ∃ m, Denotes globals p b.chain x m ∧ m.entry = e := fun e he => by
    rw [henv] at he
    obtain ⟨m, hm⟩ := exists_denotes hb hp hx he
    exact ⟨m, hm, Option.some.inj ((hm.get? hp).symm.trans he)⟩
  unfold Typing.callee at h
  split at h
  · rename_i f hf
    obtain ⟨m, hm, hentry⟩ := hmeaning _ hf
    cases Typing.gives_pure.1 h
    cases m with
    | func s =>
      cases hentry
      obtain ⟨hs, parent, hhead, hpath⟩ := hm.func_site rfl
      refine .func (?_ : Frame.resolveFunc? x c.chain = some parent) hs (label_of_path hpath) rfl
      rw [hc.chain, hm.resolveFunc? hp hx rfl]
      exact hhead
    | builtin e =>
      cases hentry
      obtain ⟨hnone, hlayout, -, l, -, hl⟩ := hc.finds_builtin hp hlayouts hx hm
      exact .builtin hnone hlayout hl
    | top | param | var | cls => cases hentry
  · rename_i cls hcls
    obtain ⟨m, hm, hentry⟩ := hmeaning _ hcls
    obtain ⟨hnone, layout, hmem, hfind, hname, hclsname, -⟩ :=
      hc.finds_class hp hlayouts hx hm hentry
    split_ifs at h
    · cases Typing.gives_pure.1 h
    · split at h
      · rename_i init hinit
        have hmember : globals.member? layout.name initName = some (.func init) := by
          rw [hname, ← hclsname, ← hglobals]
          exact hinit
        have hknows := hp.layout_knows hlayouts hmem
        obtain ⟨label, hprovides⟩ := hp.provides_of_member? hknows hmember
        have hone := hp.init_params hover hknows hprovides
        split at h
        · rename_i self rest hparams
          cases Typing.gives_pure.1 h
          refine .constructor hnone hfind (List.eq_nil_of_length_eq_zero ?_)
          rw [hparams, List.length_cons] at hone
          omega
        · simp at h
      · simp at h
  · simp at h

/-- In an accepted program constructors are called without arguments. -/
theorem Codegen.Context.IsFor.bareConstructors (hc : c.IsFor globals layouts b)
    (hp : p.Accepted globals) (hover : p.Overrides globals)
    (hlayouts : p.layouts globals = .ok layouts) (hb : b ∈ p.bodies)
    (hglobals : t.globals = globals) (henv : t.env = tables globals b.chain) :
    c.BareConstructors t := by
  intro x entry params result layout hx h hnone hfind
  cases hc.runs hp hover hlayouts hb hglobals henv hx h with
  | func hfound => cases hnone.symm.trans hfound
  | constructor _ _ hparams => exact hparams
  | builtin _ hlayout => cases hlayout.symm.trans hfind

/-- The calls of a body are typed and have their code in that of the body. -/
theorem Program.Accepted.call_inside (hp : p.Accepted globals) (hover : p.Overrides globals)
    (hlayouts : p.layouts globals = .ok layouts) (hb : b ∈ p.bodies)
    (hc : c.IsFor globals layouts b) : ∃ t : Typing.Context, t.globals = globals ∧
      t.hierarchy = globals.hierarchy ∧ t.env = tables globals b.chain ∧
      ∀ call ∈ Stmt.allCalls b.stmts, call.isCall = true ∧
        call.Inside c t (Stmt.genAll c 0 b.stmts) := by
  obtain ⟨t, hglobals, hhier, henv, htyped⟩ := hp.body_typed hb
  have hbare := hc.bareConstructors hp hover hlayouts hb hglobals henv
  refine ⟨t, hglobals, hhier, henv, fun call hcall => ?_⟩
  rw [Stmt.allCalls_eq] at hcall
  obtain ⟨hsite, hcall⟩ := List.mem_filter.1 hcall
  obtain ⟨u, hu, hsite⟩ := List.mem_flatMap.1 hsite
  exact ⟨hcall, Stmt.AllTyped.inside hbare 0 htyped (hp.body_valid hb) hu call hsite⟩

end ChocoRv
