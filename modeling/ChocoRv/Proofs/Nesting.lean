import ChocoRv.Codegen.Frame
import ChocoRv.Proofs.Accepted

/-!
# Nested functions

A function of the program has a frame, frames around it, a scope and tables around it. `Nested`
relates the four by following how functions stand in each other: a function at the top level, a
method, or a function inside another one. The sites of the code generator are exactly the nested
functions, and a path leads to the scope that the declarations spell out.
-/

namespace ChocoRv

/-- The frames that the body of a function sees, innermost first. -/
def FrameSite.chain (s : FrameSite) : List Frame := s.frame :: s.outer

/-- The site of a function that is declared in another one. -/
def FrameSite.inner (s : FrameSite) (g : FuncDef) : FrameSite :=
  ⟨.ofFunc s.chain (s.frame.path ++ [g.name]) none g, s.chain, g⟩

/-- The site of a function right inside the top-level program. -/
def Program.topSite (p : Program) (path : List Name) (class? : Option Name) (f : FuncDef) :
    FrameSite :=
  ⟨.ofFunc [p.mainFrame] path class? f, [p.mainFrame], f⟩

/-- A function of the program: its site, the variables of the function around it and the tables
around it. -/
inductive Program.Nested (globals : Scope) (p : Program) : FrameSite → Values → Env → Prop
  | func {f : FuncDef} (h : .func f ∈ p.decls) :
    Nested globals p (p.topSite [f.name] none f) noOuter [globals.entries]
  | method {c : ClassDef} {f : FuncDef} (hc : .cls c ∈ p.decls) (hf : .method f ∈ c.members) :
    Nested globals p (p.topSite [c.name, f.name] (some c.name) f) noOuter [globals.entries]
  | inner {s : FrameSite} {outer : Values} {env : Env} {g : FuncDef}
      (h : Nested globals p s outer env) (hg : .func g ∈ s.defn.decls) :
    Nested globals p (s.inner g) (s.defn.values globals.entries.value? outer).value?
      (s.defn.table globals.entries.value? outer :: env)

/-! ### The sites of the code generator -/

/-- A property that passes from a function to the functions in it. -/
def FrameSite.Inherited (P : FrameSite → Prop) : Prop :=
  ∀ s g, P s → .func g ∈ s.defn.decls → P (s.inner g)

mutual

/-- What holds of a function and passes to the functions in it holds of all its frames. -/
theorem FuncDef.forall_frames {P : FrameSite → Prop} (hP : FrameSite.Inherited P) :
    ∀ {f : FuncDef} {outer : List Frame} {path : List Name} {class? : Option Name},
      P ⟨.ofFunc outer path class? f, outer, f⟩ → ∀ s ∈ f.frames outer path class?, P s
  | .mk loc id ps ret? decls body, outer, path, class?, h => by
    simp only [FuncDef.frames, List.forall_mem_cons]
    exact ⟨h, LocalDecl.forall_frames hP fun g hg => hP _ g h hg⟩

theorem LocalDecl.forall_frames {P : FrameSite → Prop} (hP : FrameSite.Inherited P) :
    ∀ {ds : List LocalDecl} {outer : List Frame} {path : List Name},
      (∀ g, .func g ∈ ds → P ⟨.ofFunc outer (path ++ [g.name]) none g, outer, g⟩) →
        ∀ s ∈ LocalDecl.frames outer path ds, P s
  | [], _, _, _ => by simp [LocalDecl.frames]
  | .func g :: ds, outer, path, h => by
    simp only [LocalDecl.frames, List.forall_mem_append]
    exact ⟨FuncDef.forall_frames hP (h g (List.mem_cons_self ..)),
      LocalDecl.forall_frames hP fun g' hg' => h g' (List.mem_cons_of_mem _ hg')⟩
  | .var _ :: ds, outer, path, h | .global _ _ :: ds, outer, path, h
  | .nonlocal _ _ :: ds, outer, path, h => by
    simp only [LocalDecl.frames]
    exact LocalDecl.forall_frames hP fun g' hg' => h g' (List.mem_cons_of_mem _ hg')

end

theorem FuncDef.self_mem_frames (outer : List Frame) (path : List Name) (class? : Option Name)
    (f : FuncDef) : ⟨.ofFunc outer path class? f, outer, f⟩ ∈ f.frames outer path class? := by
  cases f
  simp [FuncDef.frames]

theorem LocalDecl.mem_frames {outer : List Frame} {path : List Name} {g : FuncDef} {s : FrameSite}
    (hs : s ∈ g.frames outer (path ++ [g.name]) none) : ∀ {ds : List LocalDecl}, .func g ∈ ds →
      s ∈ LocalDecl.frames outer path ds
  | d :: ds, h => by
    rcases List.mem_cons.1 h with heq | h'
    · subst heq
      simp only [LocalDecl.frames]
      exact List.mem_append_left _ hs
    · have := LocalDecl.mem_frames hs h'
      cases d <;> simp only [LocalDecl.frames]
      exacts [this, this, this, List.mem_append_right _ this]

mutual

/-- With a function its frames hold those of the functions in it. -/
theorem FuncDef.inner_mem_frames {g : FuncDef} {s : FrameSite} (hg : .func g ∈ s.defn.decls) :
    ∀ {f : FuncDef} {outer : List Frame} {path : List Name} {class? : Option Name},
      s ∈ f.frames outer path class? → s.inner g ∈ f.frames outer path class?
  | .mk loc id ps ret? decls body, outer, path, class?, h => by
    simp only [FuncDef.frames, List.mem_cons] at h ⊢
    rcases h with rfl | h
    · exact .inr (LocalDecl.mem_frames (FuncDef.self_mem_frames _ _ _ g) hg)
    · exact .inr (LocalDecl.inner_mem_frames hg h)

theorem LocalDecl.inner_mem_frames {g : FuncDef} {s : FrameSite} (hg : .func g ∈ s.defn.decls) :
    ∀ {ds : List LocalDecl} {outer : List Frame} {path : List Name},
      s ∈ LocalDecl.frames outer path ds → s.inner g ∈ LocalDecl.frames outer path ds
  | [], _, _, h => by simp [LocalDecl.frames] at h
  | .func f :: ds, outer, path, h => by
    simp only [LocalDecl.frames, List.mem_append] at h ⊢
    exact h.imp (FuncDef.inner_mem_frames hg) (LocalDecl.inner_mem_frames hg)
  | .var _ :: ds, outer, path, h | .global _ _ :: ds, outer, path, h
  | .nonlocal _ _ :: ds, outer, path, h => by
    simp only [LocalDecl.frames] at h ⊢
    exact LocalDecl.inner_mem_frames hg h

end

theorem Program.mem_frames {p : Program} {s : FrameSite} : s ∈ p.frames ↔
    (∃ f, .func f ∈ p.decls ∧ s ∈ f.frames [p.mainFrame] [f.name] none) ∨
      ∃ c f, .cls c ∈ p.decls ∧ .method f ∈ c.members ∧
        s ∈ f.frames [p.mainFrame] [c.name, f.name] (some c.name) := by
  simp only [Program.frames, List.mem_flatMap]
  constructor
  · rintro ⟨d, hd, hs⟩
    match d with
    | .var _ => simp at hs
    | .func f => exact .inl ⟨f, hd, hs⟩
    | .cls c =>
      obtain ⟨m, hm, hs⟩ := List.mem_flatMap.1 hs
      match m with
      | .attr _ => simp at hs
      | .method f => exact .inr ⟨c, f, hd, hm, hs⟩
  · rintro (⟨f, hf, hs⟩ | ⟨c, f, hc, hf, hs⟩)
    · exact ⟨.func f, hf, hs⟩
    · exact ⟨.cls c, hc, List.mem_flatMap.2 ⟨.method f, hf, hs⟩⟩

variable {globals : Scope} {p : Program} {s : FrameSite} {outer : Values} {env : Env}

/-- The sites of the code generator are the nested functions. -/
theorem Program.mem_frames_iff (globals : Scope) :
    s ∈ p.frames ↔ ∃ outer env, p.Nested globals s outer env := by
  constructor
  · have hinner : FrameSite.Inherited fun s => ∃ outer env, p.Nested globals s outer env := by
      rintro s g ⟨outer, env, h⟩ hg
      exact ⟨_, _, h.inner hg⟩
    rw [Program.mem_frames]
    rintro (⟨f, hf, hs⟩ | ⟨c, f, hc, hf, hs⟩)
    · exact FuncDef.forall_frames hinner ⟨_, _, .func hf⟩ s hs
    · exact FuncDef.forall_frames hinner ⟨_, _, .method hc hf⟩ s hs
  · rintro ⟨outer, env, h⟩
    induction h with
    | func hf => exact mem_frames.2 (.inl ⟨_, hf, FuncDef.self_mem_frames _ _ _ _⟩)
    | method hc hf =>
      exact mem_frames.2 (.inr ⟨_, _, hc, hf, FuncDef.self_mem_frames _ _ _ _⟩)
    | inner _ hg ih =>
      rcases mem_frames.1 ih with ⟨f, hf, hs⟩ | ⟨c, f, hc, hf, hs⟩
      · exact mem_frames.2 (.inl ⟨f, hf, FuncDef.inner_mem_frames hg hs⟩)
      · exact mem_frames.2 (.inr ⟨c, f, hc, hf, FuncDef.inner_mem_frames hg hs⟩)

/-! ### Their scopes -/

namespace Scope

theorem descend?_append (s : Scope) (path : List Name) (x : Name) :
    s.descend? (path ++ [x]) = (s.descend? path).bind (·.child? x) := by
  induction path generalizing s with
  | nil => simp [descend?]
  | cons y path ih =>
    simp only [List.cons_append, descend?, Option.bind_assoc]
    exact congrArg _ (funext fun s' => ih s')

end Scope

theorem lookup_of_mem {α : Type} {t : List (Name × α)} (hnd : (t.map Prod.fst).Nodup) {x : Name}
    {a : α} (h : (x, a) ∈ t) : t.lookup x = some a :=
  (Bindings.get?_eq_some_iff hnd).2 h

theorem LocalDecl.scopes_eq (global outer : Values) (ds : List LocalDecl) :
    LocalDecl.scopes global outer ds =
      (ds.filterMap LocalDecl.func?).map fun g => (g.name, g.scope global outer) := by
  induction ds with
  | nil => rfl
  | cons d ds ih =>
    cases d <;> simp [LocalDecl.scopes, LocalDecl.func?, List.filterMap_cons, ih]

theorem FuncDef.scope_entries (global outer : Values) (f : FuncDef) :
    (f.scope global outer).entries = f.table global outer := by
  cases f
  rfl

theorem FuncDef.scope_children (global outer : Values) (f : FuncDef) :
    (f.scope global outer).children =
      LocalDecl.scopes global (f.values global outer).value? f.decls := by
  cases f
  rfl

theorem LocalDecl.func?_eq_some {d : LocalDecl} {g : FuncDef} :
    d.func? = some g ↔ d = .func g := by
  cases d <;> simp [LocalDecl.func?]

theorem Member.method?_eq_some {m : Member} {f : FuncDef} :
    m.method? = some f ↔ m = .method f := by
  cases m <;> simp [Member.method?]

variable {isClass : Name → Bool} {global : Values}

namespace FuncDef.Declared

variable {f : FuncDef}

theorem nodup (h : f.Declared isClass global outer) : f.names.Nodup := by
  cases f
  simp only [FuncDef.Declared] at h
  exact h.1

theorem notClass (h : f.Declared isClass global outer) : ∀ x ∈ f.names, isClass x = false := by
  cases f
  simp only [FuncDef.Declared] at h
  exact h.2.1

theorem bound (h : f.Declared isClass global outer) : ∀ d ∈ f.decls, d.Bound global outer := by
  cases f
  simp only [FuncDef.Declared] at h
  exact h.2.2.1

theorem inner (h : f.Declared isClass global outer) {g : FuncDef} (hg : .func g ∈ f.decls) :
    g.Declared isClass global (f.values global outer).value? := by
  have hall : LocalDecl.AllDeclared isClass global (f.values global outer).value? f.decls := by
    cases f
    simp only [FuncDef.Declared] at h
    exact h.2.2.2
  generalize f.decls = ds at hall hg
  induction ds with
  | nil => simp at hg
  | cons d ds ih =>
    rcases List.mem_cons.1 hg with rfl | hg'
    · simp only [LocalDecl.AllDeclared] at hall
      exact hall.1
    · cases d <;> simp only [LocalDecl.AllDeclared] at hall
      exacts [ih hall hg', ih hall hg', ih hall hg', ih hall.2 hg']

/-- The scope of a function among the declarations. -/
theorem child? (h : f.Declared isClass global outer) {g : FuncDef} (hg : .func g ∈ f.decls) :
    (f.scope global outer).child? g.name =
      some (g.scope global (f.values global outer).value?) := by
  have hnd : (f.decls.map (·.ident.name)).Nodup := (List.nodup_append.1 h.nodup).2.1
  have hfuncs := Declarations.nodup_filterMap_name LocalDecl.func? FuncDef.name
    (fun d g h => by cases LocalDecl.func?_eq_some.1 h; rfl) hnd
  rw [Scope.child?, FuncDef.scope_children, LocalDecl.scopes_eq]
  refine lookup_of_mem (by rwa [List.map_map]) (List.mem_map.2 ⟨g, ?_, rfl⟩)
  exact List.mem_filterMap.2 ⟨_, hg, rfl⟩

end FuncDef.Declared

/-- The scope of a method. -/
theorem ClassDef.Declared.child? {c : ClassDef} (h : c.Declared isClass global) {f : FuncDef}
    (hf : .method f ∈ c.members) :
    (c.scope global).child? f.name = some (f.scope global noOuter) := by
  have hmethods := Declarations.nodup_filterMap_name Member.method? FuncDef.name
    (fun d f h => by cases Member.method?_eq_some.1 h; rfl) h.nodup
  refine lookup_of_mem (t := (c.members.filterMap Member.method?).map fun f =>
    (f.name, f.scope global noOuter)) (by rwa [List.map_map]) (List.mem_map.2 ⟨f, ?_, rfl⟩)
  exact List.mem_filterMap.2 ⟨_, hf, rfl⟩

theorem FuncDef.Valid.decls {f : FuncDef} (h : f.Valid) : ∀ d ∈ f.decls, d.Valid := by
  cases f
  simp only [FuncDef.Valid] at h
  exact LocalDecl.allValid_iff.1 h.2.2.1

theorem FuncDef.Valid.body {f : FuncDef} (h : f.Valid) : Stmt.AllValid f.body := by
  cases f
  simp only [FuncDef.Valid] at h
  exact h.2.2.2

theorem FuncDef.Typed.decls {c : Typing.Context} {scope : Scope} {f : FuncDef}
    (h : f.Typed c scope) : LocalDecl.AllTyped (c.enter scope) scope f.decls := by
  cases f
  simp only [FuncDef.Typed] at h
  exact h.1

theorem FuncDef.Typed.body {c : Typing.Context} {scope : Scope} {f : FuncDef}
    (h : f.Typed c scope) : Stmt.AllTyped (c.enter scope) f.body := by
  cases f
  simp only [FuncDef.Typed] at h
  exact h.2

namespace Program.Nested

theorem declared (h : p.Nested globals s outer env) (hp : p.Declared globals) :
    s.defn.Declared globals.entries.bindsClass globals.entries.value? outer := by
  induction h with
  | func hf => exact (hp.func _ hf).2
  | method hc hf => exact (hp.cls _ hc).2.methods _ hf
  | inner _ hg ih => exact ih.inner hg

/-- The path of a function leads to its scope. -/
theorem descend? (h : p.Nested globals s outer env) (hp : p.Declared globals) :
    globals.descend? s.frame.path = some (s.defn.scope globals.entries.value? outer) := by
  induction h with
  | func hf =>
    simp only [topSite, Frame.ofFunc, Scope.descend?, (hp.func _ hf).1, Option.bind_some]
  | method hc hf =>
    simp only [topSite, Frame.ofFunc, Scope.descend?, (hp.cls _ hc).1, Option.bind_some,
      (hp.cls _ hc).2.child? hf]
  | inner h hg ih =>
    simp only [FrameSite.inner, Frame.ofFunc, Scope.descend?_append, ih, Option.bind_some,
      (h.declared hp).child? hg]

theorem valid (h : p.Nested globals s outer env) (hp : p.Valid) : s.defn.Valid := by
  induction h with
  | func hf => exact hp.1 _ hf
  | method hc hf => exact (hp.1 _ hc).2.2 _ hf
  | inner _ hg ih =>
    have hvalid := ih.decls _ hg
    rwa [LocalDecl.Valid] at hvalid

/-- The context in which the body of a function is typed. -/
theorem typed (h : p.Nested globals s outer env) (hp : p.Declared globals) (ht : p.Typed globals) :
    ∃ c : Typing.Context, c.globals = globals ∧ c.hierarchy = globals.hierarchy ∧ c.env = env ∧
      s.defn.Typed c (s.defn.scope globals.entries.value? outer) := by
  induction h with
  | func hf => exact ⟨.ofGlobals globals, rfl, rfl, rfl, ht.1 _ hf _ (hp.func _ hf).1⟩
  | method hc hf =>
    obtain ⟨hscope, hdecl⟩ := hp.cls _ hc
    exact ⟨.ofGlobals globals, rfl, rfl, rfl, ht.1 _ hc _ hscope _ hf _ (hdecl.child? hf)⟩
  | @inner s outer env g h hg ih =>
    obtain ⟨c, hglobals, hhier, henv, htyped⟩ := ih
    refine ⟨c.enter (s.defn.scope globals.entries.value? outer), hglobals, hhier, ?_, ?_⟩
    · simp only [Typing.Context.enter, henv, FuncDef.scope_entries]
    · exact htyped.decls.func hg ((h.declared hp).child? hg)

theorem depth (h : p.Nested globals s outer env) : s.frame.depth = s.outer.length := by
  cases h <;> rfl

/-- Around a function there is at least the top-level program. -/
theorem outer_ne_nil (h : p.Nested globals s outer env) : s.outer ≠ [] := by
  cases h <;> simp [topSite, FrameSite.inner, FrameSite.chain]

theorem path_ne_nil (h : p.Nested globals s outer env) : s.frame.path ≠ [] := by
  cases h <;> simp [topSite, FrameSite.inner, Frame.ofFunc]

end Program.Nested

/-! ### Tables and bodies -/

/-- The tables that a place in the first of the frames sees. -/
def tables (globals : Scope) (chain : List Frame) : Env :=
  chain.filterMap fun f => (globals.descend? f.path).map Scope.entries

theorem tables_cons {f : Frame} {scope : Scope} (h : globals.descend? f.path = some scope)
    (chain : List Frame) : tables globals (f :: chain) = scope.entries :: tables globals chain := by
  simp [tables, h]

theorem tables_main : tables globals [p.mainFrame] = [globals.entries] := rfl

namespace Program.Nested

theorem tables_outer (h : p.Nested globals s outer env) (hp : p.Declared globals) :
    tables globals s.outer = env := by
  induction h with
  | func | method => rfl
  | inner h hg ih =>
    simp only [FrameSite.inner, FrameSite.chain]
    rw [tables_cons (h.descend? hp), FuncDef.scope_entries, ih]

theorem tables_chain (h : p.Nested globals s outer env) (hp : p.Declared globals) :
    tables globals s.chain = s.defn.table globals.entries.value? outer :: env := by
  rw [FrameSite.chain, tables_cons (h.descend? hp), FuncDef.scope_entries, h.tables_outer hp]

end Program.Nested

/-- A list of statements and the frames it sees, innermost first. -/
structure Body where
  chain : List Frame
  stmts : List Stmt

/-- The bodies of the top-level program and of all functions and methods. -/
def Program.bodies (p : Program) : List Body :=
  ⟨[p.mainFrame], p.body⟩ :: p.frames.map fun s => ⟨s.chain, s.defn.body⟩

/-- Each body is typed in the tables of its frames. -/
theorem Program.Accepted.body_typed (h : p.Accepted globals) {b : Body} (hb : b ∈ p.bodies) :
    ∃ c : Typing.Context, c.globals = globals ∧ c.hierarchy = globals.hierarchy ∧
      c.env = tables globals b.chain ∧ Stmt.AllTyped c b.stmts := by
  rcases List.mem_cons.1 hb with rfl | hb
  · exact ⟨.ofGlobals globals, rfl, rfl, rfl, h.typed.2⟩
  · obtain ⟨s, hs, rfl⟩ := List.mem_map.1 hb
    obtain ⟨outer, env, hn⟩ := (mem_frames_iff globals).1 hs
    obtain ⟨c, hglobals, hhier, henv, htyped⟩ := hn.typed h.declared h.typed
    refine ⟨c.enter (s.defn.scope globals.entries.value? outer), hglobals, hhier, ?_, htyped.body⟩
    rw [hn.tables_chain h.declared]
    simp only [Typing.Context.enter, henv, FuncDef.scope_entries]

theorem Program.Accepted.body_valid (h : p.Accepted globals) {b : Body} (hb : b ∈ p.bodies) :
    Stmt.AllValid b.stmts := by
  rcases List.mem_cons.1 hb with rfl | hb
  · exact h.valid.2
  · obtain ⟨s, hs, rfl⟩ := List.mem_map.1 hb
    obtain ⟨outer, env, hn⟩ := (mem_frames_iff globals).1 hs
    exact (hn.valid h.valid).body

/-! ### Paths -/

theorem snoc_prefix_inj {path q : List Name} {x y : Name} (hx : path ++ [x] <+: q)
    (hy : path ++ [y] <+: q) : x = y := by
  have h := (List.prefix_of_prefix_length_le hx hy (by simp)).eq_of_length (by simp)
  simpa using h

/-- Paths that go on with one of several names after `path`. -/
def GoesOn (path : List Name) (names : List Name) (q : List Name) : Prop :=
  ∃ x ∈ names, path ++ [x] <+: q

/-- Lists of sites with paths of their own, the first behind another name than the second. -/
theorem paths_append {path : List Name} {x : Name} {names : List Name} {l l' : List FrameSite}
    (hx : x ∉ names) (hl : (l.map (·.frame.path)).Nodup) (hl' : (l'.map (·.frame.path)).Nodup)
    (hin : ∀ s ∈ l, path ++ [x] <+: s.frame.path)
    (hin' : ∀ s ∈ l', GoesOn path names s.frame.path) :
    ((l ++ l').map (·.frame.path)).Nodup ∧
      ∀ s ∈ l ++ l', GoesOn path (x :: names) s.frame.path := by
  rw [List.map_append, List.nodup_append]
  refine ⟨⟨hl, hl', fun q hq q' hq' heq => ?_⟩, fun s hs => ?_⟩
  · subst heq
    obtain ⟨s, hs, rfl⟩ := List.mem_map.1 hq
    obtain ⟨s', hs', heq⟩ := List.mem_map.1 hq'
    obtain ⟨y, hy, hprefix⟩ := hin' s' hs'
    exact hx (snoc_prefix_inj (hin s hs) (heq ▸ hprefix) ▸ hy)
  · rcases List.mem_append.1 hs with hs | hs
    · exact ⟨x, List.mem_cons_self .., hin s hs⟩
    · obtain ⟨y, hy, hprefix⟩ := hin' s hs
      exact ⟨y, List.mem_cons_of_mem _ hy, hprefix⟩

theorem FuncDef.Declared.funcs_nodup {isClass : Name → Bool} {global outer : Values} {f : FuncDef}
    (h : f.Declared isClass global outer) :
    ((f.decls.filterMap LocalDecl.func?).map FuncDef.name).Nodup :=
  Declarations.nodup_filterMap_name LocalDecl.func? FuncDef.name
    (fun d g h => by cases LocalDecl.func?_eq_some.1 h; rfl) (List.nodup_append.1 h.nodup).2.1

mutual

/-- The functions in a function have paths of their own. -/
theorem FuncDef.Declared.paths {isClass : Name → Bool} {global : Values} :
    ∀ {f : FuncDef} {outer : Values}, f.Declared isClass global outer →
      ∀ (around : List Frame) (path : List Name) (class? : Option Name),
        ((f.frames around path class?).map (·.frame.path)).Nodup ∧
          ∀ s ∈ f.frames around path class?, path <+: s.frame.path
  | .mk loc id ps ret? decls body, outer, h, around, path, class? => by
    have hnd := h.funcs_nodup
    simp only [FuncDef.Declared] at h
    simp only [FuncDef.frames, List.map_cons, List.nodup_cons, List.forall_mem_cons]
    obtain ⟨hdecls, hin⟩ := LocalDecl.AllDeclared.paths h.2.2.2 hnd
      (Frame.ofFunc around path class? (.mk loc id ps ret? decls body) :: around) path
    refine ⟨⟨fun hmem => ?_, hdecls⟩, List.prefix_refl path, fun s hs => ?_⟩
    · obtain ⟨s, hs, heq⟩ := List.mem_map.1 hmem
      obtain ⟨x, -, hprefix⟩ := hin s hs
      have hle := hprefix.length_le
      rw [heq, List.length_append] at hle
      exact absurd hle (Nat.not_succ_le_self _)
    · obtain ⟨x, -, hprefix⟩ := hin s hs
      exact (List.prefix_append path [x]).trans hprefix

theorem LocalDecl.AllDeclared.paths {isClass : Name → Bool} {global : Values} :
    ∀ {ds : List LocalDecl} {outer : Values}, LocalDecl.AllDeclared isClass global outer ds →
      ((ds.filterMap LocalDecl.func?).map FuncDef.name).Nodup →
      ∀ (around : List Frame) (path : List Name),
        ((LocalDecl.frames around path ds).map (·.frame.path)).Nodup ∧
          ∀ s ∈ LocalDecl.frames around path ds,
            GoesOn path ((ds.filterMap LocalDecl.func?).map FuncDef.name) s.frame.path
  | [], outer, h, _, around, path => by simp [LocalDecl.frames]
  | .func g :: ds, outer, h, hnd, around, path => by
    simp only [LocalDecl.AllDeclared] at h
    have hpick : LocalDecl.func? (.func g) = some g := rfl
    rw [List.filterMap_cons_some hpick, List.map_cons] at hnd ⊢
    rw [List.nodup_cons] at hnd
    rw [LocalDecl.frames]
    obtain ⟨hg, hgin⟩ := h.1.paths around (path ++ [g.name]) none
    obtain ⟨hds, hdsin⟩ := LocalDecl.AllDeclared.paths h.2 hnd.2 around path
    exact paths_append hnd.1 hg hds hgin hdsin
  | .var _ :: ds, outer, h, hnd, around, path | .global _ _ :: ds, outer, h, hnd, around, path
  | .nonlocal _ _ :: ds, outer, h, hnd, around, path => by
    simp only [LocalDecl.AllDeclared] at h
    simp only [List.filterMap_cons, LocalDecl.func?] at hnd ⊢
    simp only [LocalDecl.frames]
    exact LocalDecl.AllDeclared.paths h hnd around path

end

/-- The frames of the methods of a class. -/
def Member.frames (outer : List Frame) (cls : Name) : Member → List FrameSite
  | .attr _ => []
  | .method f => f.frames outer [cls, f.name] (some cls)

theorem Member.paths {isClass : Name → Bool} {global : Values} (outer : List Frame) (cls : Name) :
    ∀ {ms : List Member}, (ms.map (·.ident.name)).Nodup →
      (∀ f, .method f ∈ ms → f.Declared isClass global noOuter) →
      ((ms.flatMap (Member.frames outer cls)).map (·.frame.path)).Nodup ∧
        ∀ s ∈ ms.flatMap (Member.frames outer cls),
          GoesOn [cls] (ms.map (·.ident.name)) s.frame.path
  | [], _, _ => by simp
  | m :: ms, hnd, h => by
    rw [List.map_cons] at hnd ⊢
    rw [List.nodup_cons] at hnd
    rw [List.flatMap_cons]
    obtain ⟨hms, hin⟩ := Member.paths outer cls hnd.2 fun f hf => h f (List.mem_cons_of_mem _ hf)
    cases m with
    | attr d => exact paths_append hnd.1 List.nodup_nil hms (by simp [Member.frames]) hin
    | method f =>
      obtain ⟨hf, hfin⟩ := (h f (List.mem_cons_self ..)).paths outer [cls, f.name] (some cls)
      exact paths_append hnd.1 hf hms hfin hin

def TopDecl.frames (outer : List Frame) : TopDecl → List FrameSite
  | .var _ => []
  | .func f => f.frames outer [f.name] none
  | .cls c => c.members.flatMap (Member.frames outer c.name)

theorem Program.frames_eq (p : Program) :
    p.frames = p.decls.flatMap (TopDecl.frames [p.mainFrame]) := rfl

theorem TopDecl.paths (outer : List Frame) (hp : p.Declared globals) : ∀ {ds : List TopDecl},
    (∀ d ∈ ds, d ∈ p.decls) → (ds.map (·.ident.name)).Nodup →
      ((ds.flatMap (TopDecl.frames outer)).map (·.frame.path)).Nodup ∧
        ∀ s ∈ ds.flatMap (TopDecl.frames outer), GoesOn [] (ds.map (·.ident.name)) s.frame.path
  | [], _, _ => by simp
  | d :: ds, hin, hnd => by
    rw [List.map_cons] at hnd ⊢
    rw [List.nodup_cons] at hnd
    rw [List.flatMap_cons]
    obtain ⟨hd, hds⟩ := List.forall_mem_cons.1 hin
    obtain ⟨hrest, hrestin⟩ := TopDecl.paths outer hp hds hnd.2
    cases d with
    | var d => exact paths_append hnd.1 List.nodup_nil hrest (by simp [TopDecl.frames]) hrestin
    | func f =>
      obtain ⟨hf, hfin⟩ := (hp.func f hd).2.paths outer [f.name] none
      exact paths_append hnd.1 hf hrest hfin hrestin
    | cls c =>
      obtain ⟨hc, hcin⟩ := Member.paths outer c.name (hp.cls c hd).2.nodup (hp.cls c hd).2.methods
      refine paths_append hnd.1 hc hrest (fun s hs => ?_) hrestin
      obtain ⟨x, -, hprefix⟩ := hcin s hs
      exact (List.prefix_append [c.name] [x]).trans hprefix

/-- No two functions of a program have the same path. -/
theorem Program.Declared.paths_nodup (hp : p.Declared globals) :
    (p.frames.map (·.frame.path)).Nodup := by
  rw [Program.frames_eq]
  exact (TopDecl.paths _ hp (fun _ h => h) hp.nodup).1

end ChocoRv
