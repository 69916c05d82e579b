import ChocoRv.Proofs.Generation
import ChocoRv.Proofs.ScopeAgreement
import ChocoRv.Proofs.Subtyping

/-!
# Contexts of accepted programs

The context of every body of an accepted program serves the typing context of the body: the labels
that `Program.Known` lists are all that its code needs from the rest of the program.
-/

namespace ChocoRv

open Asm Codegen

variable {globals : Scope} {p : Program} {layouts : List ClassLayout} {chain : List Frame} {x : Name}
  {m : Meaning}

/-! ### Declarations behind meanings -/

theorem Denotes.top_mem (h : Denotes globals p chain x m) {d : VarDef} (hm : m = .top d) :
    .var d ∈ p.decls ∧ d.name = x := by
  induction h with
  | @top d' h =>
    cases d' with
    | var d' =>
      cases hm
      exact ⟨h, rfl⟩
    | func | cls => cases hm
  | global _ _ hd hid =>
    cases hm
    exact ⟨hd, hid⟩
  | builtin | param | var | func => cases hm
  | «nonlocal» _ _ _ _ ih | outer _ _ _ ih => exact ih hm

theorem Denotes.cls_mem (h : Denotes globals p chain x m) {c : ClassDef} (hm : m = .cls c) :
    .cls c ∈ p.decls ∧ c.name = x := by
  induction h with
  | @top d h =>
    cases d with
    | cls c' =>
      cases hm
      exact ⟨h, rfl⟩
    | func | var => cases hm
  | builtin | param | var | func | global => cases hm
  | «nonlocal» _ _ _ _ ih | outer _ _ _ ih => exact ih hm

theorem Denotes.builtin_mem (h : Denotes globals p chain x m) {e : Entry} (hm : m = .builtin e) :
    (x, e) ∈ Scope.builtins.entries := by
  induction h with
  | @top d h => cases d <;> cases hm
  | builtin h =>
    cases hm
    exact Bindings.mem_of_get? h
  | param | var | func | global => cases hm
  | «nonlocal» _ _ _ _ ih | outer _ _ _ ih => exact ih hm

/-- The signature of a function stands in the scope of the function or class around. -/
theorem Program.Nested.signature {s : FrameSite} {outer : Values} {env : Env}
    (h : p.Nested globals s outer env) (hp : p.Accepted globals) :
    ∃ around scope, s.frame.path = around ++ [s.defn.name] ∧ globals.descend? around = some scope ∧
      scope.get? s.defn.name = some (.func s.defn.ty) := by
  cases h with
  | @func f hf =>
    refine ⟨[], globals, rfl, rfl, (hp.declared.get?_iff).2 ?_⟩
    exact List.mem_append_right _ (List.mem_map.2 ⟨f, List.mem_filterMap.2 ⟨_, hf, rfl⟩, rfl⟩)
  | @method c f hc hf =>
    refine ⟨[c.name], c.scope globals.entries.value?, rfl, ?_,
      (ClassLayout.member_get? hp.declared hc).2 (.inr ⟨_, hf, rfl⟩)⟩
    rw [Scope.descend?, (hp.declared.cls c hc).1]
    rfl
  | @inner s outer env g h hg =>
    refine ⟨s.frame.path, _, rfl, h.descend? hp.declared, ?_⟩
    rw [Scope.get?, FuncDef.scope_entries]
    exact (h.declared hp.declared).get?_of_mem (h.valid hp.valid) (mem_table_func _ _ hg)

/-- A function is found in its scope with the label for its epilogue. -/
theorem Program.Nested.enter {s : FrameSite} {outer : Values} {env : Env}
    (h : p.Nested globals s outer env) (hp : p.Accepted globals) (layouts : List ClassLayout) :
    Codegen.enter globals layouts s = some (⟨globals, layouts, s.frame, s.outer, s.defn.ty.ret,
      s.frame.label ++ txt "$epilogue"⟩, s.defn.scope globals.entries.value? outer) := by
  obtain ⟨around, scope, hpath, hscope, hget⟩ := h.signature hp
  have hdrop : s.frame.path.dropLast = around := by rw [hpath, List.dropLast_concat]
  simp only [Codegen.enter, hdrop, hscope, hget, h.descend? hp.declared, Entry.func?,
    Option.bind_eq_bind, Option.bind_some]

/-! ### Labels that bodies refer to -/

/-- The labels of an accepted program that the code of its bodies may refer to. -/
inductive Program.Known (p : Program) (layouts : List ClassLayout) : Label → Prop
  | routine {l : Label} (h : l ∈ runtimeLabels ++ helperLabels) : Known p layouts l
  | globalVar {d : VarDef} (h : .var d ∈ p.decls) : Known p layouts (globalLabel d.name)
  | func {t : FrameSite} (h : t ∈ p.frames) : Known p layouts t.frame.label
  | epilogue {t : FrameSite} (h : t ∈ p.frames) : Known p layouts (t.frame.label ++ txt "$epilogue")
  | prototype {l : ClassLayout} (h : l ∈ layouts) : Known p layouts l.prototypeLabel
  | dispatch {l : ClassLayout} (h : l ∈ layouts) : Known p layouts l.dispatchLabel

namespace Program.Accepted

theorem path_valid (hp : p.Accepted globals) {s : FrameSite} (hs : s ∈ p.frames) :
    ∀ x ∈ s.frame.path, ValidName x := by
  obtain ⟨outer, env, hn⟩ := (mem_frames_iff globals).1 hs
  exact hn.path_valid hp.valid

theorem newline_notMem_path (hp : p.Accepted globals) {s : FrameSite} (hs : s ∈ p.frames) :
    newline ∉ dotted s.frame.path :=
  notMem_dotted (by decide) fun x hx => (hp.path_valid hs x hx).newline

theorem newline_notMem_name (hp : p.Accepted globals) {s : FrameSite} (hs : s ∈ p.frames) :
    newline ∉ s.frame.name := by
  have hpath := hp.newline_notMem_path hs
  unfold Frame.name
  split
  · decide
  · exact hpath

theorem layout_name_valid (hp : p.Accepted globals) (h : p.layouts globals = .ok layouts)
    {l : ClassLayout} (hl : l ∈ layouts) : ValidName l.name := by
  have hbuiltin : ∀ x ∈ ClassLayout.builtins.map ClassLayout.name, ValidName x := by
    simp only [ClassLayout.builtins, List.map_cons, List.map_nil, List.forall_mem_cons,
      List.not_mem_nil, false_imp_iff, implies_true, and_true]
    refine ⟨⟨⟨_, _, rfl, ?_, ?_⟩, ?_⟩, ⟨⟨_, _, rfl, ?_, ?_⟩, ?_⟩, ⟨⟨_, _, rfl, ?_, ?_⟩, ?_⟩,
      ⟨⟨_, _, rfl, ?_, ?_⟩, ?_⟩⟩
    all_goals decide +kernel
  have hmem : l.name ∈ layouts.map ClassLayout.name := List.mem_map_of_mem hl
  rw [hp.layouts_names h, List.mem_append] at hmem
  rcases hmem with hmem | hmem
  · exact hbuiltin _ hmem
  · obtain ⟨c, hc, hname⟩ := List.mem_map.1 hmem
    rw [← hname]
    exact (hp.valid.1 _ (Program.Declared.mem_classes.1 hc)).ident

/-- What every class of a program has: a layout with places for its members. -/
theorem find_layout (hp : p.Accepted globals) (h : p.layouts globals = .ok layouts) {cls : ClassTy}
    (hcls : globals.entries.get? x = some (.cls cls)) :
    ∃ layout ∈ layouts, ClassLayout.find? layouts x = some layout ∧ layout.name = x ∧
      cls.name = x ∧ layout.Covers globals := by
  have hname : cls.name = x ∧ x ∈ layouts.map ClassLayout.name := by
    have hbuiltin : ∀ b ∈ Scope.builtins.entries, ∀ cls ∈ b.2.class?,
        cls.name = b.1 ∧ b.1 ∈ ClassLayout.builtins.map ClassLayout.name := by decide
    rw [hp.layouts_names h, List.mem_append]
    rcases hp.declared.get?_cls hcls with hb | ⟨c, hc, rfl, rfl⟩
    · obtain ⟨hname, hmem⟩ := hbuiltin _ hb _ rfl
      exact ⟨hname, .inl hmem⟩
    · exact ⟨rfl, .inr (List.mem_map_of_mem (Program.Declared.mem_classes.2 hc))⟩
  obtain ⟨layout, hfind, hmem, hlayout⟩ := ClassLayout.find?_ok hname.2
  obtain ⟨layouts', h', -, hsound⟩ := hp.layouts
  cases h.symm.trans h'
  exact ⟨layout, hmem, hfind, hlayout, hname.1, (hsound layout hmem).covers⟩

/-- No layout has the name of a predefined function. -/
theorem no_layout (hp : p.Accepted globals) (h : p.layouts globals = .ok layouts) {f : FuncTy}
    (hx : (x, Entry.func f) ∈ Scope.builtins.entries) : ClassLayout.find? layouts x = none := by
  refine ClassLayout.find?_eq_none fun hmem => ?_
  rw [hp.layouts_names h, List.mem_append] at hmem
  rcases hmem with hmem | hmem
  · have hclass : ∀ b ∈ Scope.builtins.entries, b.1 ∈ ClassLayout.builtins.map ClassLayout.name →
        b.2.func? = none := by decide
    cases hclass _ hx hmem
  · obtain ⟨c, hc, rfl⟩ := List.mem_map.1 hmem
    have hfresh := hp.declared.fresh _ (Program.Declared.mem_classes.1 hc)
    cases hfresh.symm.trans (Bindings.declares_iff.2 (List.mem_map_of_mem hx))

end Program.Accepted

/-! ### Contexts serve -/

/-- The context of a body of the program. -/
structure Codegen.Context.IsFor (c : Context) (globals : Scope) (layouts : List ClassLayout)
    (b : Body) : Prop where
  globals : c.globals = globals
  layouts : c.layouts = layouts
  chain : c.chain = b.chain

variable {c : Context} {b : Body} {t : Typing.Context}

/-- Code generation finds the signature of a function that a name stands for. -/
theorem Denotes.funcTy? (h : Denotes globals p chain x m) (hp : p.Accepted globals)
    (hc : c.globals = globals) {s : FrameSite} (hm : m = .func s) {parent : Frame}
    (hpath : s.frame.path = parent.childPath x) : c.funcTy? parent x = some s.defn.ty := by
  obtain ⟨hs, -⟩ := h.func_site hm
  obtain ⟨outer, env, hn⟩ := (Program.mem_frames_iff globals).1 hs
  obtain ⟨around, scope, haround, hscope, hget⟩ := hn.signature hp
  obtain ⟨rfl, hname⟩ := List.append_inj' (haround.symm.trans hpath) rfl
  obtain rfl := List.singleton_inj.1 hname
  simp only [Context.funcTy?, hc, hscope, hget, Entry.func?, Option.bind_eq_bind, Option.bind_some]

/-- A predefined function is found as such. -/
theorem Codegen.Context.IsFor.finds_builtin (hc : c.IsFor globals layouts b)
    (hp : p.Accepted globals) (hlayouts : p.layouts globals = .ok layouts) (hx : ValidName x)
    {f : FuncTy} (hm : Denotes globals p b.chain x (.builtin (.func f))) :
    Frame.resolveFunc? x c.chain = none ∧ ClassLayout.find? c.layouts x = none ∧
      (c.globals.get? x).bind Entry.func? = some f ∧
      ∃ l ∈ runtimeLabels ++ helperLabels, builtinFuncs.lookup x = some l := by
  have hmem := hm.builtin_mem rfl
  have hroutine : ∀ b ∈ Scope.builtins.entries, b.2.func?.isSome →
      ∃ l ∈ runtimeLabels ++ helperLabels, builtinFuncs.lookup b.1 = some l := by decide
  refine ⟨?_, ?_, ?_, hroutine _ hmem rfl⟩
  · rw [hc.chain, hm.resolveFunc? hp hx rfl]
    rfl
  · rw [hc.layouts]
    exact hp.no_layout hlayouts hmem
  · rw [hc.globals, Scope.get?, hp.declared.get?_builtin hmem]
    rfl

/-- A name that stands for a class is found as one. -/
theorem Codegen.Context.IsFor.finds_class (hc : c.IsFor globals layouts b) (hp : p.Accepted globals)
    (hlayouts : p.layouts globals = .ok layouts) (hx : ValidName x)
    (hm : Denotes globals p b.chain x m) {cls : ClassTy} (hentry : m.entry = .cls cls) :
    Frame.resolveFunc? x c.chain = none ∧ ∃ layout ∈ layouts,
      ClassLayout.find? c.layouts x = some layout ∧ layout.name = x ∧ cls.name = x ∧
        layout.Covers globals := by
  have hnone : m.storage? = none ∧ m.parent? = none := by
    cases m with
    | cls | builtin => exact ⟨rfl, rfl⟩
    | func | top | param | var => cases hentry
  have hget : globals.entries.get? x = some (.cls cls) := by
    cases m with
    | cls c =>
      obtain ⟨hc, rfl⟩ := hm.cls_mem rfl
      rw [hp.declared.get?_class hc, ← hentry]
      rfl
    | builtin e =>
      cases hentry
      exact hp.declared.get?_builtin (hm.builtin_mem rfl)
    | func | top | param | var => cases hentry
  rw [hc.chain, hc.layouts, hm.resolveFunc? hp hx hnone.1, hnone.2]
  exact ⟨rfl, hp.find_layout hlayouts hget⟩

theorem Codegen.Context.IsFor.finds (hc : c.IsFor globals layouts b) (hp : p.Accepted globals)
    (hlayouts : p.layouts globals = .ok layouts) (hb : b ∈ p.bodies) (hglobals : t.globals = globals)
    (henv : t.env = tables globals b.chain) (hx : ValidName x) {entry : Entry} {params : List Ty}
    {result : Ty} (h : Typing.Gives (Typing.callee t x) (.func entry params result)) :
    c.Finds (p.Known layouts) x params := by
  have hmeaning : ∀ e, t.env.get? x = some e →
      ∃ m, Denotes globals p b.chain x m ∧ m.entry = e := fun e he => by
    rw [henv] at he
    obtain ⟨m, hm⟩ := exists_denotes hb hp hx he
    exact ⟨m, hm, Option.some.inj ((hm.get? hp).symm.trans he)⟩
  unfold Typing.callee at h
  split at h
  · rename_i f hf
    obtain ⟨m, hm, hentry⟩ := hmeaning _ hf
    cases Typing.gives_pure.1 h
    cases m with
    | func s =>
      cases hentry
      obtain ⟨hs, parent, hhead, hpath⟩ := hm.func_site rfl
      have hlabel := label_of_path hpath
      refine .func (?_ : Frame.resolveFunc? x c.chain = some parent)
        (hm.funcTy? hp hc.globals rfl hpath) rfl (hlabel ▸ .func hs) ?_
      · rw [hc.chain, hm.resolveFunc? hp hx rfl]
        exact hhead
      · rw [Frame.childName, ← hpath]
        exact hp.newline_notMem_path hs
    | builtin e =>
      cases hentry
      obtain ⟨hnone, hlayout, hty, l, hknown, hl⟩ := hc.finds_builtin hp hlayouts hx hm
      exact .builtin hnone hlayout hl hty rfl (.routine hknown)
    | top | param | var | cls => cases hentry
  · rename_i cls hcls
    obtain ⟨m, hm, hentry⟩ := hmeaning _ hcls
    obtain ⟨hnone, layout, hmem, hfind, hname, hclsname, hcovers⟩ :=
      hc.finds_class hp hlayouts hx hm hentry
    split_ifs at h
    · cases Typing.gives_pure.1 h
    · split at h
      · rename_i init hinit
        have hmember : globals.member? layout.name initName = some (.func init) := by
          rw [hname, ← hclsname, ← hglobals]
          exact hinit
        obtain ⟨o, ho⟩ := ClassLayout.methodOffset_ok (hcovers.method hmember)
        exact .constructor hnone hfind ho (.prototype hmem)
          (hp.layout_name_valid hlayouts hmem).newline
      · simp at h
  · simp at h

/-- The context of a body serves the context in which the body is typed. -/
theorem Codegen.Context.IsFor.serves (hc : c.IsFor globals layouts b) (hp : p.Accepted globals)
    (hlayouts : p.layouts globals = .ok layouts) (hb : b ∈ p.bodies) (hglobals : t.globals = globals)
    (henv : t.env = tables globals b.chain) : c.Serves t (p.Known layouts) where
  routines _ hl := .routine hl
  globals := hc.globals.trans hglobals.symm
  globalVar x ty hx hget l hl := by
    rw [henv] at hget
    obtain ⟨m, hm⟩ := exists_denotes hb hp hx hget
    have hentry : m.entry = .value ty := Option.some.inj ((hm.get? hp).symm.trans hget)
    obtain ⟨st, hst⟩ := Option.isSome_iff_exists.1
      (storage?_isSome (hm.not_builtin_value (t := ty)) hentry)
    rw [hc.chain, hm.resolve hp hx hst] at hl
    subst hl
    cases m with
    | top d =>
      cases hst
      exact .globalVar (hm.top_mem rfl).1
    | param | var | func | cls | builtin => cases hst
  callee x entry params result hx h := hc.finds hp hlayouts hb hglobals henv hx h
  layout o cls h := by
    cases o with
    | cls name =>
      rw [Typing.Context.classOf?, Option.bind_eq_some_iff] at h
      obtain ⟨e, hget, hclass⟩ := h
      have hcls : globals.entries.get? name = some (.cls cls) := by
        rw [← hglobals]
        cases e with
        | cls c => exact hget.trans (congrArg (some ∘ Entry.cls) (Option.some.inj hclass))
        | value | func => cases hclass
      obtain ⟨layout, -, hfind, hname, hclsname, hcovers⟩ := hp.find_layout hlayouts hcls
      refine ⟨layout, ?_, hname.trans hclsname.symm, fun x ty hx => ?_, fun x f hx => ?_⟩
      · rw [Context.layoutOf, hc.layouts, hfind]
      · refine ClassLayout.attrOffset_ok (hcovers.attr (t := ty) ?_)
        rw [hname, ← hclsname, ← hglobals]
        exact hx
      · refine ClassLayout.methodOffset_ok (hcovers.method (f := f) ?_)
        rw [hname, ← hclsname, ← hglobals]
        exact hx
    | noneType | emptyList | list => cases h

end ChocoRv
