import ChocoRv.Proofs.Nesting

/-!
# What names stand for

`Denotes` says which declaration a name stands for where some frames are seen, following the tables
of the frames and the `global` and `nonlocal` declarations in them. A name that the tables bind
stands for exactly one declaration, and the tables give it the entry of that declaration.
-/

namespace ChocoRv

variable {globals : Scope} {p : Program} {isClass : Name → Bool} {global outer : Values}
  {f : FuncDef}

/-! ### The table of a function -/

theorem LocalDecl.var?_eq_some {d : LocalDecl} {v : VarDef} : d.var? = some v ↔ d = .var v := by
  cases d <;> simp [LocalDecl.var?]

theorem LocalDecl.global?_eq_some {d : LocalDecl} {id : Ident} :
    d.global? = some id ↔ ∃ loc, d = .global loc id := by
  cases d <;> simp [LocalDecl.global?]

theorem LocalDecl.nonlocal?_eq_some {d : LocalDecl} {id : Ident} :
    d.nonlocal? = some id ↔ ∃ loc, d = .nonlocal loc id := by
  cases d <;> simp [LocalDecl.nonlocal?]

/-- Variables and functions together are all declarations. -/
theorem LocalDecl.names_perm {ds : List LocalDecl} (h : ∀ d ∈ ds, d.Bound global outer) :
    ((ds.filterMap (LocalDecl.binding? global outer)).map Prod.fst ++
      (ds.filterMap LocalDecl.func?).map FuncDef.name).Perm (ds.map (·.ident.name)) := by
  induction ds with
  | nil => exact .refl _
  | cons d ds ih =>
    obtain ⟨hd, hds⟩ := List.forall_mem_cons.1 h
    cases d with
    | var d => exact (ih hds).cons d.name
    | global loc id =>
      obtain ⟨t, ht⟩ := Option.isSome_iff_exists.1 hd
      have hb : LocalDecl.binding? global outer (.global loc id) = some (id.name, .value t) := by
        simp [LocalDecl.binding?, ht]
      rw [List.filterMap_cons_some hb]
      exact (ih hds).cons id.name
    | «nonlocal» loc id =>
      obtain ⟨t, ht⟩ := Option.isSome_iff_exists.1 hd
      have hb : LocalDecl.binding? global outer (.nonlocal loc id) = some (id.name, .value t) := by
        simp [LocalDecl.binding?, ht]
      rw [List.filterMap_cons_some hb]
      exact (ih hds).cons id.name
    | func g =>
      refine .trans ?_ ((ih hds).cons g.name)
      exact List.perm_middle

theorem FuncDef.Valid.names (h : f.Valid) : ∀ x ∈ f.names, ValidName x := by
  rw [FuncDef.names, List.forall_mem_append, List.forall_mem_map, List.forall_mem_map]
  refine ⟨?_, fun d hd => (h.decls d hd).ident⟩
  cases f
  simp only [FuncDef.Valid] at h
  exact h.2.1

namespace FuncDef.Declared

theorem names_perm (h : f.Declared isClass global outer) :
    ((f.table global outer).map Prod.fst).Perm (returnEntry :: f.names) := by
  have hdecls := LocalDecl.names_perm h.bound
  have hkeys : (f.table global outer).map Prod.fst = f.params.map (·.name.name) ++
      ((f.decls.filterMap (LocalDecl.binding? global outer)).map Prod.fst ++ [returnEntry] ++
        (f.decls.filterMap LocalDecl.func?).map FuncDef.name) := by
    simp only [FuncDef.table, FuncDef.values, List.map_append, List.map_map, List.append_assoc]
    rfl
  rw [hkeys, FuncDef.names]
  have hmove : ((f.decls.filterMap (LocalDecl.binding? global outer)).map Prod.fst ++
      [returnEntry] ++ (f.decls.filterMap LocalDecl.func?).map FuncDef.name).Perm
        (returnEntry :: f.decls.map (·.ident.name)) := by
    rw [List.append_assoc]
    exact List.perm_middle.trans (hdecls.cons _)
  exact (hmove.append_left _).trans List.perm_middle

/-- No name is bound twice in the table of a function. -/
theorem table_nodup (h : f.Declared isClass global outer) (hv : f.Valid) :
    ((f.table global outer).map Prod.fst).Nodup := by
  rw [h.names_perm.nodup_iff, List.nodup_cons]
  exact ⟨fun hmem => (hv.names _ hmem).ne_return rfl, h.nodup⟩

theorem get?_of_mem (h : f.Declared isClass global outer) (hv : f.Valid) {x : Name} {e : Entry}
    (hmem : (x, e) ∈ f.table global outer) : (f.table global outer).get? x = some e :=
  (Bindings.get?_eq_some_iff (h.table_nodup hv)).2 hmem

/-- The names in the table of a function are those that it declares. -/
theorem get?_eq_none_iff (h : f.Declared isClass global outer) {x : Name} (hx : ValidName x) :
    (f.table global outer).get? x = none ↔ x ∉ f.names := by
  rw [Bindings.get?_eq_none_iff, h.names_perm.mem_iff, List.mem_cons, not_or]
  exact ⟨And.right, fun hnot => ⟨hx.ne_return, hnot⟩⟩

theorem decl_inj (h : f.Declared isClass global outer) {d d' : LocalDecl} (hd : d ∈ f.decls)
    (hd' : d' ∈ f.decls) (hname : d.ident.name = d'.ident.name) : d = d' :=
  List.inj_on_of_nodup_map (List.nodup_append.1 h.nodup).2.1 hd hd' hname

theorem param_ne_decl (h : f.Declared isClass global outer) {v : TypedVar} {d : LocalDecl}
    (hv : v ∈ f.params) (hd : d ∈ f.decls) : v.name.name ≠ d.ident.name :=
  (List.nodup_append.1 h.nodup).2.2 _ (List.mem_map.2 ⟨v, hv, rfl⟩) _ (List.mem_map.2 ⟨d, hd, rfl⟩)

end FuncDef.Declared

/-! ### What a name stands for -/

/-- A declaration that a name stands for. -/
inductive Meaning where
  /-- A variable of the program. -/
  | top (d : VarDef)
  /-- Parameter number `i` of a function. -/
  | param (s : FrameSite) (i : Nat) (v : TypedVar)
  /-- Variable number `k` of a function. -/
  | var (s : FrameSite) (k : Nat) (d : VarDef)
  | func (s : FrameSite)
  | cls (c : ClassDef)
  | builtin (e : Entry)

namespace Meaning

/-- The entry of the declaration in a table. -/
def entry : Meaning → Entry
  | top d => .value d.ty
  | param _ _ v => .value v.ty
  | var _ _ d => .value d.ty
  | func s => .func s.defn.ty
  | cls c => .cls ⟨c.name, some c.super.name, false⟩
  | builtin e => e

/-- Where a variable is kept: a word of its own or a word of the frame of its function. -/
def storage? : Meaning → Option Frame.Storage
  | top d => some (.global (globalLabel d.name))
  | param s i _ => some (.slot s.frame (s.frame.paramOffset i))
  | var s k _ => some (.slot s.frame (Frame.localOffset k))
  | func _ | cls _ | builtin _ => none

/-- The frame that declares a function. -/
def parent? : Meaning → Option Frame
  | func s => s.outer.head?
  | _ => none

end Meaning

/-- What the name of a declaration at the top level stands for. -/
def TopDecl.meaning (p : Program) : TopDecl → Meaning
  | .var d => .top d
  | .func f => .func (p.topSite [f.name] none f)
  | .cls c => .cls c

/-- What a name stands for where the frames of the list are seen. A `global` declaration stands for
the variable of the program and a `nonlocal` one for that of the function around; a table that does
not bind the name is passed over. -/
inductive Denotes (globals : Scope) (p : Program) : List Frame → Name → Meaning → Prop
  | top {d : TopDecl} (h : d ∈ p.decls) :
    Denotes globals p [p.mainFrame] d.ident.name (d.meaning p)
  | builtin {x : Name} {e : Entry} (h : Scope.builtins.get? x = some e) :
    Denotes globals p [p.mainFrame] x (.builtin e)
  | param {s : FrameSite} {i : Nat} {v : TypedVar} (hs : s ∈ p.frames)
      (h : s.defn.params[i]? = some v) : Denotes globals p s.chain v.name.name (.param s i v)
  | var {s : FrameSite} {k : Nat} {d : VarDef} (hs : s ∈ p.frames)
      (h : (s.defn.decls.filterMap LocalDecl.var?)[k]? = some d) :
    Denotes globals p s.chain d.name (.var s k d)
  | func {s : FrameSite} {g : FuncDef} (hs : s ∈ p.frames) (h : .func g ∈ s.defn.decls) :
    Denotes globals p s.chain g.name (.func (s.inner g))
  | global {s : FrameSite} {loc : Loc} {id : Ident} {d : VarDef} (hs : s ∈ p.frames)
      (h : .global loc id ∈ s.defn.decls) (hd : .var d ∈ p.decls) (hid : d.name = id.name) :
    Denotes globals p s.chain id.name (.top d)
  | nonlocal {s : FrameSite} {loc : Loc} {id : Ident} {m : Meaning} (hs : s ∈ p.frames)
      (h : .nonlocal loc id ∈ s.defn.decls) (hvar : m.storage?.isSome)
      (hm : Denotes globals p s.outer id.name m) : Denotes globals p s.chain id.name m
  | outer {s : FrameSite} {x : Name} {m : Meaning} (hs : s ∈ p.frames)
      (h : (tables globals [s.frame]).get? x = none) (hm : Denotes globals p s.outer x m) :
    Denotes globals p s.chain x m

theorem Env.get?_cons (t : Bindings Entry) (env : Env) (x : Name) :
    Env.get? (t :: env) x = (t.get? x).or (Env.get? env x) := by
  simp only [Env.get?, List.findSome?_cons]
  cases t.get? x <;> rfl

theorem mem_table_param (global outer : Values) {i : Nat} {v : TypedVar}
    (h : f.params[i]? = some v) : (v.name.name, .value v.ty) ∈ f.table global outer := by
  refine List.mem_append_left _ (List.mem_append_left _ (List.mem_append_left _ ?_))
  exact List.mem_map.2 ⟨v, List.mem_of_getElem? h, rfl⟩

theorem mem_table_decl {d : LocalDecl} {x : Name} {e : Entry} (h : d ∈ f.decls)
    (hd : d.binding? global outer = some (x, e)) : (x, e) ∈ f.table global outer := by
  refine List.mem_append_left _ (List.mem_append_left _ (List.mem_append_right _ ?_))
  exact List.mem_filterMap.2 ⟨d, h, hd⟩

theorem mem_table_func (global outer : Values) {g : FuncDef} (h : .func g ∈ f.decls) :
    (g.name, .func g.ty) ∈ f.table global outer := by
  refine List.mem_append_right _ (List.mem_map.2 ⟨g, ?_, rfl⟩)
  exact List.mem_filterMap.2 ⟨_, h, rfl⟩

/-- The value that the table around binds a `nonlocal` name to is the first that the tables around
bind it to. -/
theorem Program.Nested.outer_value {s : FrameSite} {env : Env} (h : p.Nested globals s outer env)
    {x : Name} {t : Ty} (hx : outer x = some t) : Env.get? env x = some (.value t) := by
  cases h with
  | func | method => cases hx
  | @inner s outer env g h hg =>
    rw [Bindings.value?_eq_some_iff] at hx
    rw [Env.get?_cons, FuncDef.table, Bindings.get?_append, hx]
    rfl

theorem Program.Nested.get?_chain {s : FrameSite} {env : Env} (h : p.Nested globals s outer env)
    (hp : p.Declared globals) (x : Name) : (tables globals s.chain).get? x =
      ((s.defn.table globals.entries.value? outer).get? x).or ((tables globals s.outer).get? x) := by
  rw [h.tables_chain hp, h.tables_outer hp, Env.get?_cons]

theorem Program.Nested.get?_frame {s : FrameSite} {env : Env} (h : p.Nested globals s outer env)
    (hp : p.Declared globals) (x : Name) : (tables globals [s.frame]).get? x =
      (s.defn.table globals.entries.value? outer).get? x := by
  rw [tables_cons (h.descend? hp), FuncDef.scope_entries, Env.get?_cons]
  cases (s.defn.table globals.entries.value? outer).get? x <;> rfl

/-- What the table of a function binds is found first. -/
theorem Program.Nested.get?_own {s : FrameSite} {env : Env} (h : p.Nested globals s outer env)
    (hp : p.Accepted globals) {x : Name} {e : Entry}
    (hmem : (x, e) ∈ s.defn.table globals.entries.value? outer) :
    (tables globals s.chain).get? x = some e := by
  rw [h.get?_chain hp.declared,
    (h.declared hp.declared).get?_of_mem (h.valid hp.valid) hmem]
  rfl

theorem get?_main (x : Name) : (tables globals [p.mainFrame]).get? x = globals.entries.get? x := by
  rw [tables_main, Env.get?_cons]
  cases globals.entries.get? x <;> rfl

variable {chain : List Frame} {x : Name} {m : Meaning}

/-- Analysis finds the entry of the declaration. -/
theorem Denotes.get? (h : Denotes globals p chain x m) (hp : p.Accepted globals) :
    (tables globals chain).get? x = some m.entry := by
  induction h with
  | @top d h =>
    rw [get?_main, hp.declared.get?_iff]
    cases d with
    | var d =>
      exact List.mem_append_left _ (List.mem_append_right _
        (List.mem_map.2 ⟨d, List.mem_filterMap.2 ⟨_, h, rfl⟩, rfl⟩))
    | func f =>
      exact List.mem_append_right _ (List.mem_map.2 ⟨f, List.mem_filterMap.2 ⟨_, h, rfl⟩, rfl⟩)
    | cls c =>
      exact List.mem_append_left _ (List.mem_append_left _ (List.mem_append_right _
        (List.mem_map.2 ⟨c, List.mem_filterMap.2 ⟨_, h, rfl⟩, rfl⟩)))
  | builtin h =>
    rw [get?_main, hp.declared.get?_iff]
    exact List.mem_append_left _ (List.mem_append_left _ (List.mem_append_left _
      (Bindings.mem_of_get? h)))
  | param hs h =>
    obtain ⟨outer, env, hn⟩ := (Program.mem_frames_iff globals).1 hs
    exact hn.get?_own hp (mem_table_param _ _ h)
  | var hs h =>
    obtain ⟨outer, env, hn⟩ := (Program.mem_frames_iff globals).1 hs
    obtain ⟨d, hd, hpick⟩ := List.mem_filterMap.1 (List.mem_of_getElem? h)
    cases LocalDecl.var?_eq_some.1 hpick
    exact hn.get?_own hp (mem_table_decl hd rfl)
  | func hs h =>
    obtain ⟨outer, env, hn⟩ := (Program.mem_frames_iff globals).1 hs
    exact hn.get?_own hp (mem_table_func _ _ h)
  | @global s loc id d hs h hd hid =>
    obtain ⟨outer, env, hn⟩ := (Program.mem_frames_iff globals).1 hs
    have hvalue := hp.declared.value?_iff.2 ⟨d, hd, hid, rfl⟩
    have hbinding : LocalDecl.binding? globals.entries.value? outer (.global loc id) =
        some (id.name, .value d.ty) := by
      simp [LocalDecl.binding?, hvalue]
    exact hn.get?_own hp (mem_table_decl h hbinding)
  | @«nonlocal» s loc id m hs h hvar hm ih =>
    obtain ⟨outer, env, hn⟩ := (Program.mem_frames_iff globals).1 hs
    obtain ⟨t, ht⟩ := Option.isSome_iff_exists.1 ((hn.declared hp.declared).bound _ h)
    have hbinding : LocalDecl.binding? globals.entries.value? outer (.nonlocal loc id) =
        some (id.name, .value t) := by
      simp [LocalDecl.binding?, ht]
    rw [hn.tables_outer hp.declared, hn.outer_value ht] at ih
    rw [hn.get?_own hp (mem_table_decl h hbinding)]
    exact ih
  | outer hs h hm ih =>
    obtain ⟨outer, env, hn⟩ := (Program.mem_frames_iff globals).1 hs
    rw [hn.get?_frame hp.declared] at h
    rw [hn.get?_chain hp.declared, h]
    exact ih

theorem storage?_isSome {m : Meaning} {t : Ty} (hm : ∀ e, m = .builtin e → e ≠ .value t)
    (h : m.entry = .value t) : m.storage?.isSome := by
  cases m with
  | top | param | var => rfl
  | builtin e => exact absurd h (hm e rfl)
  | func | cls => cases h

/-- What is built in is no variable. -/
theorem Denotes.not_builtin_value (h : Denotes globals p chain x m) {t : Ty} :
    ∀ e, m = .builtin e → e ≠ .value t := by
  have hbuiltin : ∀ b ∈ Scope.builtins.entries, b.2.value? = none := by decide
  induction h with
  | builtin h =>
    rintro e ⟨⟩ rfl
    exact absurd (hbuiltin _ (Bindings.mem_of_get? h)) (by simp [Entry.value?])
  | outer _ _ _ ih | «nonlocal» _ _ _ _ ih => exact ih
  | @top d h => cases d <;> rintro e ⟨⟩
  | _ => rintro e ⟨⟩

theorem exists_denotes_main (hp : p.Declared globals) {e : Entry}
    (h : (tables globals [p.mainFrame]).get? x = some e) :
    ∃ m, Denotes globals p [p.mainFrame] x m := by
  rw [get?_main, hp.get?_iff] at h
  simp only [Program.table, List.mem_append, List.mem_map, List.mem_filterMap] at h
  obtain ((hb | ⟨c, ⟨d, hd, hpick⟩, heq⟩) | ⟨v, ⟨d, hd, hpick⟩, heq⟩) | ⟨f, ⟨d, hd, hpick⟩, heq⟩ := h
  · refine ⟨.builtin e, .builtin ?_⟩
    exact (Bindings.get?_eq_some_iff (by decide)).2 hb
  · cases TopDecl.class?_eq_some.1 hpick
    cases heq
    exact ⟨_, .top hd⟩
  · cases TopDecl.var?_eq_some.1 hpick
    cases heq
    exact ⟨_, .top hd⟩
  · cases TopDecl.func?_eq_some.1 hpick
    cases heq
    exact ⟨_, .top hd⟩

/-- A name that the tables bind stands for something, if that holds around the function. -/
theorem Program.Nested.exists_denotes_of_outer {s : FrameSite} {env : Env}
    (hn : p.Nested globals s outer env) (hp : p.Accepted globals) (hx : ValidName x)
    (houter : ∀ e, (tables globals s.outer).get? x = some e → ∃ m, Denotes globals p s.outer x m)
    {e : Entry} (h : (tables globals s.chain).get? x = some e) :
    ∃ m, Denotes globals p s.chain x m := by
  have hs : s ∈ p.frames := (mem_frames_iff globals).2 ⟨_, _, hn⟩
  rw [hn.get?_chain hp.declared] at h
  cases htable : (s.defn.table globals.entries.value? outer).get? x with
  | none =>
    rw [htable] at h
    obtain ⟨m, hm⟩ := houter e h
    exact ⟨m, .outer hs (by rw [hn.get?_frame hp.declared, htable]) hm⟩
  | some e' =>
    have hmem := Bindings.mem_of_get? htable
    simp only [FuncDef.table, FuncDef.values, List.mem_append, List.mem_map, List.mem_filterMap,
      List.mem_singleton] at hmem
    obtain ((⟨v, hv, heq⟩ | ⟨d, hd, hbinding⟩) | heq) | ⟨g, ⟨d, hd, hpick⟩, heq⟩ := hmem
    · cases heq
      obtain ⟨i, hi⟩ := List.mem_iff_getElem?.1 hv
      exact ⟨_, .param hs hi⟩
    · cases d with
      | var d =>
        cases hbinding
        obtain ⟨k, hk⟩ := List.mem_iff_getElem?.1
          (List.mem_filterMap.2 ⟨_, hd, rfl⟩ : d ∈ s.defn.decls.filterMap LocalDecl.var?)
        exact ⟨_, .var hs hk⟩
      | global loc id =>
        obtain ⟨t, ht, heq⟩ := Option.map_eq_some_iff.1 hbinding
        cases heq
        obtain ⟨v, hv, hname, -⟩ := hp.declared.value?_iff.1 ht
        exact ⟨_, .global hs hd hv hname⟩
      | «nonlocal» loc id =>
        obtain ⟨t, ht, heq⟩ := Option.map_eq_some_iff.1 hbinding
        cases heq
        have hget := hn.outer_value ht
        rw [← hn.tables_outer hp.declared] at hget
        obtain ⟨m, hm⟩ := houter _ hget
        refine ⟨m, .nonlocal hs hd (storage?_isSome (hm.not_builtin_value (t := t)) ?_) hm⟩
        exact Option.some.inj ((hm.get? hp).symm.trans hget)
      | func g => cases hbinding
    · cases heq
      exact absurd rfl hx.ne_return
    · cases LocalDecl.func?_eq_some.1 hpick
      cases heq
      exact ⟨_, .func hs hd⟩

/-- A name that the tables bind stands for something. -/
theorem Program.Nested.exists_denotes {s : FrameSite} {env : Env}
    (hn : p.Nested globals s outer env) (hp : p.Accepted globals) (hx : ValidName x) :
    ∀ {e}, (tables globals s.chain).get? x = some e → ∃ m, Denotes globals p s.chain x m := by
  induction hn with
  | func hf =>
    exact (Program.Nested.func hf).exists_denotes_of_outer hp hx fun e he =>
      exists_denotes_main hp.declared he
  | method hc hf =>
    exact (Program.Nested.method hc hf).exists_denotes_of_outer hp hx fun e he =>
      exists_denotes_main hp.declared he
  | inner h hg ih => exact (h.inner hg).exists_denotes_of_outer hp hx fun e he => ih he

theorem exists_denotes {b : Body} (hb : b ∈ p.bodies) (hp : p.Accepted globals) (hx : ValidName x)
    {e : Entry} (h : (tables globals b.chain).get? x = some e) :
    ∃ m, Denotes globals p b.chain x m := by
  rcases List.mem_cons.1 hb with rfl | hb
  · exact exists_denotes_main hp.declared h
  · obtain ⟨s, hs, rfl⟩ := List.mem_map.1 hb
    obtain ⟨outer, env, hn⟩ := (Program.mem_frames_iff globals).1 hs
    exact hn.exists_denotes hp hx h

/-! ### A name stands for one thing -/

/-- The frames that a function sees belong to it only. -/
theorem Program.Declared.site_inj (hp : p.Declared globals) {s s' : FrameSite}
    (hs : s ∈ p.frames) (hs' : s' ∈ p.frames) (h : s.chain = s'.chain) : s = s' :=
  List.inj_on_of_nodup_map hp.paths_nodup hs hs' (congrArg Frame.path (List.cons.inj h).1)

theorem chain_ne_main {s : FrameSite} (hs : s ∈ p.frames) : s.chain ≠ [p.mainFrame] := by
  obtain ⟨outer, env, hn⟩ := (Program.mem_frames_iff Scope.empty).1 hs
  exact fun h => hn.outer_ne_nil (List.cons.inj h).2

theorem Denotes.main_inv (h : Denotes globals p [p.mainFrame] x m) :
    (∃ d ∈ p.decls, d.ident.name = x ∧ m = d.meaning p) ∨
      ∃ e, Scope.builtins.get? x = some e ∧ m = .builtin e := by
  generalize hc : [p.mainFrame] = chain at h
  cases h with
  | top h => exact .inl ⟨_, h, rfl, rfl⟩
  | builtin h => exact .inr ⟨_, h, rfl⟩
  | param hs | var hs | func hs | global hs | «nonlocal» hs | outer hs =>
    exact absurd hc.symm (chain_ne_main hs)

/-- What the name of a declaration in a function stands for. -/
def LocalDecl.Means (globals : Scope) (p : Program) (s : FrameSite) (m : Meaning) :
    LocalDecl → Prop
  | .var d => ∃ k, (s.defn.decls.filterMap LocalDecl.var?)[k]? = some d ∧ m = .var s k d
  | .func g => m = .func (s.inner g)
  | .global _ id => ∃ d, .var d ∈ p.decls ∧ d.name = id.name ∧ m = .top d
  | .nonlocal _ id => Denotes globals p s.outer id.name m

theorem Denotes.chain_inv (hp : p.Declared globals) {s : FrameSite} (hs : s ∈ p.frames)
    (h : Denotes globals p s.chain x m) :
    (∃ i v, s.defn.params[i]? = some v ∧ v.name.name = x ∧ m = .param s i v) ∨
      (∃ d ∈ s.defn.decls, d.ident.name = x ∧ d.Means globals p s m) ∨
      ((tables globals [s.frame]).get? x = none ∧ Denotes globals p s.outer x m) := by
  generalize hc : s.chain = chain at h
  cases h with
  | top | builtin => exact absurd hc (chain_ne_main hs)
  | param hs' h =>
    cases hp.site_inj hs hs' hc
    exact .inl ⟨_, _, h, rfl, rfl⟩
  | var hs' h =>
    cases hp.site_inj hs hs' hc
    obtain ⟨d, hd, hpick⟩ := List.mem_filterMap.1 (List.mem_of_getElem? h)
    cases LocalDecl.var?_eq_some.1 hpick
    exact .inr (.inl ⟨_, hd, rfl, _, h, rfl⟩)
  | func hs' h =>
    cases hp.site_inj hs hs' hc
    exact .inr (.inl ⟨_, h, rfl, rfl⟩)
  | global hs' h hd hid =>
    cases hp.site_inj hs hs' hc
    exact .inr (.inl ⟨_, h, rfl, _, hd, hid, rfl⟩)
  | «nonlocal» hs' h _ hm =>
    cases hp.site_inj hs hs' hc
    exact .inr (.inl ⟨_, h, rfl, hm⟩)
  | outer hs' h hm =>
    cases hp.site_inj hs hs' hc
    exact .inr (.inr ⟨h, hm⟩)

theorem Denotes.main_unique (hp : p.Declared globals) {m' : Meaning}
    (h : Denotes globals p [p.mainFrame] x m) (h' : Denotes globals p [p.mainFrame] x m') :
    m = m' := by
  have hnot : ∀ d ∈ p.decls, ∀ e, Scope.builtins.get? d.ident.name ≠ some e := by
    intro d hd e he
    have hfresh := hp.fresh d hd
    simp only [Scope.declares, Bindings.declares, Option.isSome_eq_false_iff,
      Option.isNone_iff_eq_none] at hfresh
    cases hfresh.symm.trans he
  rcases h.main_inv with ⟨d, hd, rfl, rfl⟩ | ⟨e, he, rfl⟩ <;>
    rcases h'.main_inv with ⟨d', hd', hname, rfl⟩ | ⟨e', he', rfl⟩
  · rw [List.inj_on_of_nodup_map hp.nodup hd' hd hname]
  · exact absurd he' (hnot d hd e')
  · exact absurd (hname ▸ he) (hnot d' hd' e)
  · rw [Option.some.inj (he.symm.trans he')]

/-- Places in a list with distinct names are told apart by the names. -/
theorem index_inj {α : Type} {key : α → Name} {xs : List α} (hnd : (xs.map key).Nodup) {i j : Nat}
    {a b : α} (ha : xs[i]? = some a) (hb : xs[j]? = some b) (hkey : key a = key b) :
    i = j ∧ a = b := by
  have hi : i < (xs.map key).length := by
    rw [List.length_map]
    exact (List.getElem?_eq_some_iff.1 ha).1
  have hij : i = j := (List.getElem?_inj hi hnd).1 (by simp [ha, hb, hkey])
  subst hij
  exact ⟨rfl, Option.some.inj (ha.symm.trans hb)⟩

theorem Program.Nested.unique_of_outer {s : FrameSite} {env : Env}
    (hn : p.Nested globals s outer env) (hp : p.Declared globals) {m' : Meaning}
    (houter : ∀ {x m m'}, Denotes globals p s.outer x m → Denotes globals p s.outer x m' → m = m')
    (h : Denotes globals p s.chain x m) (h' : Denotes globals p s.chain x m') : m = m' := by
  have hs : s ∈ p.frames := (mem_frames_iff globals).2 ⟨_, _, hn⟩
  have hd := hn.declared hp
  have hbound : ∀ x ∈ s.defn.names, (tables globals [s.frame]).get? x ≠ none := by
    intro x hx
    rw [hn.get?_frame hp, ne_eq, Bindings.get?_eq_none_iff, not_not, hd.names_perm.mem_iff]
    exact List.mem_cons_of_mem _ hx
  have hparam : ∀ {i : Nat} {v : TypedVar}, s.defn.params[i]? = some v →
      v.name.name ∈ s.defn.names := fun hv =>
    List.mem_append_left _ (List.mem_map.2 ⟨_, List.mem_of_getElem? hv, rfl⟩)
  have hdecl : ∀ d ∈ s.defn.decls, d.ident.name ∈ s.defn.names := fun d hd =>
    List.mem_append_right _ (List.mem_map.2 ⟨d, hd, rfl⟩)
  rcases h.chain_inv hp hs with ⟨i, v, hv, rfl, rfl⟩ | ⟨d, hd₁, rfl, hm⟩ | ⟨hnone, hm⟩ <;>
    rcases h'.chain_inv hp hs with ⟨j, w, hw, hname, rfl⟩ | ⟨d', hd₂, hname, hm'⟩ | ⟨hnone', hm'⟩
  · obtain ⟨rfl, rfl⟩ := index_inj (List.nodup_append.1 hd.nodup).1 hw hv hname
    rfl
  · exact absurd hname.symm (hd.param_ne_decl (List.mem_of_getElem? hv) hd₂)
  · exact absurd hnone' (hbound _ (hparam hv))
  · exact absurd hname (hd.param_ne_decl (List.mem_of_getElem? hw) hd₁)
  · obtain rfl := hd.decl_inj hd₂ hd₁ hname
    cases d' with
    | var d =>
      obtain ⟨k, hk, rfl⟩ := hm
      obtain ⟨k', hk', rfl⟩ := hm'
      have hnd := Declarations.nodup_filterMap_name LocalDecl.var? VarDef.name
        (fun d v h => by cases LocalDecl.var?_eq_some.1 h; rfl) (List.nodup_append.1 hd.nodup).2.1
      obtain ⟨rfl, -⟩ := index_inj hnd hk hk' rfl
      rfl
    | func g => exact hm.trans hm'.symm
    | global loc id =>
      obtain ⟨v, hv, hid, rfl⟩ := hm
      obtain ⟨w, hw, hid', rfl⟩ := hm'
      cases List.inj_on_of_nodup_map hp.nodup hv hw (hid.trans hid'.symm)
      rfl
    | «nonlocal» loc id => exact houter hm hm'
  · exact absurd hnone' (hbound _ (hdecl d hd₁))
  · exact absurd hnone (hname ▸ hbound _ (hparam hw))
  · exact absurd hnone (hname ▸ hbound _ (hdecl d' hd₂))
  · exact houter hm hm'

theorem Program.Nested.unique {s : FrameSite} {env : Env} (hn : p.Nested globals s outer env)
    (hp : p.Declared globals) : ∀ {x m m'}, Denotes globals p s.chain x m →
      Denotes globals p s.chain x m' → m = m' := by
  induction hn with
  | func hf =>
    exact (Program.Nested.func hf).unique_of_outer hp fun h h' => h.main_unique hp h'
  | method hc hf =>
    exact (Program.Nested.method hc hf).unique_of_outer hp fun h h' => h.main_unique hp h'
  | inner h hg ih => exact (h.inner hg).unique_of_outer hp fun h h' => ih h h'

/-- A name stands for at most one declaration. -/
theorem Denotes.unique {b : Body} (hb : b ∈ p.bodies) (hp : p.Declared globals) {m' : Meaning}
    (h : Denotes globals p b.chain x m) (h' : Denotes globals p b.chain x m') : m = m' := by
  rcases List.mem_cons.1 hb with rfl | hb
  · exact h.main_unique hp h'
  · obtain ⟨s, hs, rfl⟩ := List.mem_map.1 hb
    obtain ⟨outer, env, hn⟩ := (Program.mem_frames_iff globals).1 hs
    exact hn.unique hp h h'

end ChocoRv
