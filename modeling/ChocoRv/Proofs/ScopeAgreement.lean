import ChocoRv.Proofs.Meanings

/-!
# Scopes and frames agree

A name in a body is looked up twice: analysis goes through the tables around the body, and code
generation through its frames. Both find the declaration that the name stands for.
-/

namespace ChocoRv

variable {globals : Scope} {p : Program} {isClass : Name → Bool} {global outer : Values}
  {f : FuncDef} {chain : List Frame} {x : Name} {m : Meaning}

/-! ### The frame of a function -/

theorem Program.Nested.frame_eq {s : FrameSite} {env : Env} (h : p.Nested globals s outer env) :
    s.frame = .ofFunc s.outer s.frame.path s.frame.class? s.defn := by
  cases h <;> rfl

theorem slots_names (fr : Frame) : fr.slots.map Prod.fst = fr.params ++ fr.locals := by
  simp [Frame.slots, List.map_append, List.mapIdx_eq_zipIdx_map, List.map_map, Function.comp_def]

theorem mem_mapIdx_map {α β : Type} {key : α → Name} {g : Nat → Name → β} {xs : List α} {b : β} :
    b ∈ (xs.map key).mapIdx g ↔ ∃ i a, xs[i]? = some a ∧ g i (key a) = b := by
  rw [List.mem_mapIdx]
  constructor
  · rintro ⟨i, hi, heq⟩
    rw [List.length_map] at hi
    exact ⟨i, xs[i], List.getElem?_eq_getElem hi, by simpa using heq⟩
  · rintro ⟨i, a, ha, heq⟩
    obtain ⟨hi, rfl⟩ := List.getElem?_eq_some_iff.1 ha
    exact ⟨i, by simpa using hi, by simpa using heq⟩

section
variable {fr : Frame} {around : List Frame} {path : List Name} {class? : Option Name} {x : Name}
  (hfr : fr = .ofFunc around path class? f)
include hfr

theorem contains_globals : fr.globals.contains x = true ↔
    ∃ loc id, .global loc id ∈ f.decls ∧ id.name = x := by
  subst hfr
  simp only [Frame.ofFunc, List.contains_iff_mem, List.mem_map, List.mem_filterMap,
    LocalDecl.global?_eq_some]
  constructor
  · rintro ⟨id, ⟨_, hd, loc, rfl⟩, rfl⟩
    exact ⟨loc, id, hd, rfl⟩
  · rintro ⟨loc, id, hd, rfl⟩
    exact ⟨id, ⟨_, hd, loc, rfl⟩, rfl⟩

theorem contains_nonlocals : fr.nonlocals.contains x = true ↔
    ∃ loc id, .nonlocal loc id ∈ f.decls ∧ id.name = x := by
  subst hfr
  simp only [Frame.ofFunc, List.contains_iff_mem, List.mem_map, List.mem_filterMap,
    LocalDecl.nonlocal?_eq_some]
  constructor
  · rintro ⟨id, ⟨_, hd, loc, rfl⟩, rfl⟩
    exact ⟨loc, id, hd, rfl⟩
  · rintro ⟨loc, id, hd, rfl⟩
    exact ⟨id, ⟨_, hd, loc, rfl⟩, rfl⟩

theorem contains_funcs : fr.funcs.contains x = true ↔
    ∃ g, .func g ∈ f.decls ∧ g.name = x := by
  subst hfr
  simp only [Frame.ofFunc, List.contains_iff_mem, List.mem_map, List.mem_filterMap,
    LocalDecl.func?_eq_some, exists_eq_right]

/-- The slots of a function are those of its parameters and variables. -/
theorem offset?_eq_some_iff (h : f.Declared isClass global outer) {o : Int} :
    fr.offset? x = some o ↔
      (∃ i v, f.params[i]? = some v ∧ v.name.name = x ∧
        o = fr.paramOffset i) ∨
      ∃ k d, (f.decls.filterMap LocalDecl.var?)[k]? = some d ∧ d.name = x ∧
        o = Frame.localOffset k := by
  subst hfr
  have hnd : ((Frame.ofFunc around path class? f).slots.reverse.map Prod.fst).Nodup := by
    rw [List.map_reverse, List.nodup_reverse, slots_names, List.nodup_append]
    refine ⟨(List.nodup_append.1 h.nodup).1, ?_, fun a ha b hb => ?_⟩
    · exact Declarations.nodup_filterMap_name LocalDecl.var? VarDef.name
        (fun d v h => by cases LocalDecl.var?_eq_some.1 h; rfl) (List.nodup_append.1 h.nodup).2.1
    · obtain ⟨v, hv, rfl⟩ := List.mem_map.1 ha
      obtain ⟨d, hd, rfl⟩ := List.mem_map.1 hb
      obtain ⟨d', hd', hpick⟩ := List.mem_filterMap.1 hd
      cases LocalDecl.var?_eq_some.1 hpick
      exact h.param_ne_decl hv hd'
  have hget := Bindings.get?_eq_some_iff hnd (x := x) (a := o)
  rw [List.mem_reverse] at hget
  refine hget.trans ?_
  rw [Frame.slots, List.mem_append]
  refine or_congr (mem_mapIdx_map.trans ?_) (mem_mapIdx_map.trans ?_)
  · simp only [Prod.mk.injEq, eq_comm]
  · simp only [Prod.mk.injEq, eq_comm]

/-- What a frame says of a name that is none of the declarations. -/
theorem frame_of_no_decl (hdecl : ∀ d ∈ f.decls, d.ident.name ≠ x) :
    fr.globals.contains x = false ∧
      fr.nonlocals.contains x = false ∧
      fr.funcs.contains x = false := by
  refine ⟨?_, ?_, ?_⟩
  · rw [Bool.eq_false_iff, ne_eq, contains_globals hfr]
    rintro ⟨loc, id, hd, hid⟩
    exact hdecl _ hd hid
  · rw [Bool.eq_false_iff, ne_eq, contains_nonlocals hfr]
    rintro ⟨loc, id, hd, hid⟩
    exact hdecl _ hd hid
  · rw [Bool.eq_false_iff, ne_eq, contains_funcs hfr]
    rintro ⟨g, hd, hid⟩
    exact hdecl _ hd hid

/-- What a frame says of the name of a declaration. -/
theorem frame_of_decl (h : f.Declared isClass global outer) {d : LocalDecl} (hd : d ∈ f.decls) :
    fr.globals.contains d.ident.name = d.global?.isSome ∧
      fr.nonlocals.contains d.ident.name = d.nonlocal?.isSome ∧
      fr.funcs.contains d.ident.name = d.func?.isSome := by
  refine ⟨?_, ?_, ?_⟩
  · rw [Bool.eq_iff_iff, contains_globals hfr, Option.isSome_iff_exists]
    constructor
    · rintro ⟨loc, id, hid, hname⟩
      exact ⟨id, LocalDecl.global?_eq_some.2 ⟨loc, h.decl_inj hd hid hname.symm⟩⟩
    · rintro ⟨id, hid⟩
      obtain ⟨loc, rfl⟩ := LocalDecl.global?_eq_some.1 hid
      exact ⟨loc, id, hd, rfl⟩
  · rw [Bool.eq_iff_iff, contains_nonlocals hfr, Option.isSome_iff_exists]
    constructor
    · rintro ⟨loc, id, hid, hname⟩
      exact ⟨id, LocalDecl.nonlocal?_eq_some.2 ⟨loc, h.decl_inj hd hid hname.symm⟩⟩
    · rintro ⟨id, hid⟩
      obtain ⟨loc, rfl⟩ := LocalDecl.nonlocal?_eq_some.1 hid
      exact ⟨loc, id, hd, rfl⟩
  · rw [Bool.eq_iff_iff, contains_funcs hfr, Option.isSome_iff_exists]
    constructor
    · rintro ⟨g, hg, hname⟩
      exact ⟨g, LocalDecl.func?_eq_some.2 (h.decl_inj hd hg hname.symm)⟩
    · rintro ⟨g, hg⟩
      cases LocalDecl.func?_eq_some.1 hg
      exact ⟨g, hd, rfl⟩

/-- Only parameters and variables have a slot. -/
theorem offset?_eq_none (h : f.Declared isClass global outer)
    (hparam : ∀ v ∈ f.params, v.name.name ≠ x) (hvar : ∀ d, .var d ∈ f.decls → d.name ≠ x) :
    fr.offset? x = none := by
  rw [Option.eq_none_iff_forall_ne_some]
  intro o ho
  rcases (offset?_eq_some_iff hfr h).1 ho with ⟨i, v, hv, hname, -⟩ | ⟨k, d, hd, hname, -⟩
  · exact hparam v (List.mem_of_getElem? hv) hname
  · obtain ⟨d', hd', hpick⟩ := List.mem_filterMap.1 (List.mem_of_getElem? hd)
    cases LocalDecl.var?_eq_some.1 hpick
    exact hvar d hd' hname

end

/-! ### Both ways agree -/

theorem Program.Nested.depth_ne_zero {s : FrameSite} {env : Env}
    (h : p.Nested globals s outer env) : s.frame.depth ≠ 0 := by
  rw [h.depth]
  exact fun hnil => h.outer_ne_nil (List.eq_nil_of_length_eq_zero hnil)

/-- One step of the search for the storage of a name. -/
theorem resolve_chain {s : FrameSite} (h : s.frame.depth ≠ 0) (x : Name) :
    Frame.resolve x s.chain =
      if s.frame.globals.contains x then .global (globalLabel x)
      else if s.frame.nonlocals.contains x then Frame.resolve x s.outer
      else (s.frame.offset? x).elim (Frame.resolve x s.outer) (.slot s.frame) := by
  simp only [FrameSite.chain, Frame.resolve, h, decide_false, Bool.false_or]
  cases s.frame.offset? x <;> rfl

theorem resolveFunc?_chain (s : FrameSite) (x : Name) :
    Frame.resolveFunc? x s.chain =
      if s.frame.funcs.contains x then some s.frame
      else if (s.frame.offset? x).isSome then none
      else Frame.resolveFunc? x s.outer := by
  rw [FrameSite.chain, Frame.resolveFunc?]

/-- A name that the table of a function does not bind is looked for around it. -/
theorem Program.Nested.resolve_outer {s : FrameSite} {env : Env}
    (hn : p.Nested globals s outer env) (hp : p.Declared globals) (hx : ValidName x)
    (h : (tables globals [s.frame]).get? x = none) :
    Frame.resolve x s.chain = Frame.resolve x s.outer ∧
      Frame.resolveFunc? x s.chain = Frame.resolveFunc? x s.outer := by
  have hd := hn.declared hp
  rw [hn.get?_frame hp, hd.get?_eq_none_iff hx, FuncDef.names, List.mem_append, not_or,
    List.mem_map, List.mem_map] at h
  have hparam : ∀ v ∈ s.defn.params, v.name.name ≠ x := fun v hv heq => h.1 ⟨v, hv, heq⟩
  have hdecl : ∀ d ∈ s.defn.decls, d.ident.name ≠ x := fun d hd heq => h.2 ⟨d, hd, heq⟩
  obtain ⟨hg, hnl, hf⟩ := frame_of_no_decl hn.frame_eq hdecl
  have ho := offset?_eq_none hn.frame_eq hd hparam fun d hd => hdecl _ hd
  constructor
  · rw [resolve_chain hn.depth_ne_zero, hg, hnl, ho]
    rfl
  · rw [resolveFunc?_chain, hf, ho]
    rfl

/-- Code generation finds the storage of the declaration. -/
theorem Denotes.resolve (h : Denotes globals p chain x m) (hp : p.Accepted globals)
    (hx : ValidName x) {st : Frame.Storage} (hst : m.storage? = some st) :
    Frame.resolve x chain = st := by
  induction h with
  | @top d h =>
    cases d with
    | var d => exact Option.some.inj hst
    | func | cls => cases hst
  | builtin | func => cases hst
  | @param s i v hs h =>
    obtain ⟨outer, env, hn⟩ := (Program.mem_frames_iff globals).1 hs
    have hd := hn.declared hp.declared
    obtain ⟨hg, hnl, -⟩ := frame_of_no_decl hn.frame_eq fun d hd' heq =>
      hd.param_ne_decl (List.mem_of_getElem? h) hd' heq.symm
    have ho := (offset?_eq_some_iff hn.frame_eq hd).2 (.inl ⟨i, v, h, rfl, rfl⟩)
    rw [resolve_chain hn.depth_ne_zero, hg, hnl, ho]
    exact Option.some.inj hst
  | @var s k d hs h =>
    obtain ⟨outer, env, hn⟩ := (Program.mem_frames_iff globals).1 hs
    have hd := hn.declared hp.declared
    obtain ⟨d', hd', hpick⟩ := List.mem_filterMap.1 (List.mem_of_getElem? h)
    cases LocalDecl.var?_eq_some.1 hpick
    obtain ⟨hg, hnl, -⟩ := frame_of_decl hn.frame_eq hd hd'
    have ho := (offset?_eq_some_iff hn.frame_eq hd).2 (.inr ⟨k, d, h, rfl, rfl⟩)
    have hname : (LocalDecl.var d).ident.name = d.name := rfl
    rw [hname] at hg hnl
    rw [resolve_chain hn.depth_ne_zero, hg, hnl, ho]
    exact Option.some.inj hst
  | @global s loc id d hs h hd hid =>
    obtain ⟨outer, env, hn⟩ := (Program.mem_frames_iff globals).1 hs
    obtain ⟨hg, -⟩ := frame_of_decl hn.frame_eq (hn.declared hp.declared) h
    have hname : (LocalDecl.global loc id).ident.name = id.name := rfl
    rw [hname] at hg
    rw [resolve_chain hn.depth_ne_zero, hg, ← hid]
    exact Option.some.inj hst
  | @«nonlocal» s loc id m hs h hvar hm ih =>
    obtain ⟨outer, env, hn⟩ := (Program.mem_frames_iff globals).1 hs
    obtain ⟨hg, hnl, -⟩ := frame_of_decl hn.frame_eq (hn.declared hp.declared) h
    have hname : (LocalDecl.nonlocal loc id).ident.name = id.name := rfl
    rw [hname] at hg hnl
    rw [resolve_chain hn.depth_ne_zero, hg, hnl]
    exact ih hx hst
  | outer hs h hm ih =>
    obtain ⟨outer, env, hn⟩ := (Program.mem_frames_iff globals).1 hs
    rw [(hn.resolve_outer hp.declared hx h).1]
    exact ih hx hst

open Classical in
theorem resolveFunc?_main (p : Program) (x : Name) : Frame.resolveFunc? x [p.mainFrame] =
    if ∃ f, .func f ∈ p.decls ∧ f.name = x then some p.mainFrame else none := by
  have hfuncs : p.mainFrame.funcs.contains x = true ↔ ∃ f, .func f ∈ p.decls ∧ f.name = x := by
    simp only [Program.mainFrame, List.contains_iff_mem, List.mem_map, List.mem_filterMap,
      TopDecl.func?_eq_some, exists_eq_right]
  have hoffset : p.mainFrame.offset? x = none := rfl
  simp only [Frame.resolveFunc?, hfuncs, hoffset, Option.isSome_none, Bool.false_eq_true, if_false]

/-- Code generation finds the frame that declares a function, and none for what is no variable. -/
theorem Denotes.resolveFunc? (h : Denotes globals p chain x m) (hp : p.Accepted globals)
    (hx : ValidName x) (hm : m.storage? = none) : Frame.resolveFunc? x chain = m.parent? := by
  induction h with
  | param | var | global => cases hm
  | @top d h =>
    cases d with
    | var d => cases hm
    | func f =>
      rw [resolveFunc?_main, if_pos ⟨f, h, rfl⟩]
      rfl
    | cls c =>
      rw [resolveFunc?_main, if_neg]
      · rfl
      · rintro ⟨f, hf, hname⟩
        cases List.inj_on_of_nodup_map hp.declared.nodup hf h hname
  | builtin h =>
    rw [resolveFunc?_main, if_neg]
    · rfl
    · rintro ⟨f, hf, rfl⟩
      have hfresh : Scope.builtins.declares f.name = false := hp.declared.fresh _ hf
      have hget : Scope.builtins.entries.get? f.name = none := by
        simpa [Scope.declares, Bindings.declares] using hfresh
      cases hget.symm.trans h
  | @func s g hs h =>
    obtain ⟨outer, env, hn⟩ := (Program.mem_frames_iff globals).1 hs
    obtain ⟨-, -, hf⟩ := frame_of_decl hn.frame_eq (hn.declared hp.declared) h
    have hname : (LocalDecl.func g).ident.name = g.name := rfl
    rw [hname] at hf
    rw [resolveFunc?_chain, hf]
    rfl
  | «nonlocal» _ _ hvar => simp [hm] at hvar
  | outer hs h _ ih =>
    obtain ⟨outer, env, hn⟩ := (Program.mem_frames_iff globals).1 hs
    rw [(hn.resolve_outer hp.declared hx h).2]
    exact ih hx hm

/-! ### The names in a body -/

/-- How a name is used in a body. -/
inductive Use where
  /-- It is read, assigned to or the variable of a `for` statement. -/
  | var
  | callee
deriving DecidableEq, Repr

/-- What a name must be bound to for a use. -/
def Use.Allows : Use → Entry → Prop
  | .var, .value _ => True
  | .callee, .func _ | .callee, .cls _ => True
  | _, _ => False

mutual

/-- The names of variables and functions in an expression. -/
def Expr.uses : Expr → List (Use × Name)
  | .lit _ => []
  | .name id => [(.var, id.name)]
  | .unary _ _ e => e.uses
  | .binary _ l _ r => l.uses ++ r.uses
  | .cond _ test yes no => test.uses ++ yes.uses ++ no.uses
  | .list _ elems => Expr.allUses elems
  | .index _ seq i => seq.uses ++ i.uses
  | .member _ object _ => object.uses
  | .call _ id args => (.callee, id.name) :: Expr.allUses args
  | .methodCall _ _ object _ args => object.uses ++ Expr.allUses args

def Expr.allUses : List Expr → List (Use × Name)
  | [] => []
  | e :: es => e.uses ++ Expr.allUses es

end

mutual

def Stmt.uses : Stmt → List (Use × Name)
  | .expr _ e => e.uses
  | .assign _ targets value => Expr.allUses targets ++ value.uses
  | .ite _ test yes no => test.uses ++ Stmt.allUses yes ++ Stmt.allUses no
  | .loop _ test body => test.uses ++ Stmt.allUses body
  | .each _ id iterable body => (.var, id.name) :: (iterable.uses ++ Stmt.allUses body)
  | .ret _ none => []
  | .ret _ (some e) => e.uses

def Stmt.allUses : List Stmt → List (Use × Name)
  | [] => []
  | s :: ss => s.uses ++ Stmt.allUses ss

end

/-- A name that may stand where it is used: an identifier, bound to something that fits. -/
def Used (c : Typing.Context) (u : Use × Name) : Prop :=
  ValidName u.2 ∧ ∃ e, c.env.get? u.2 = some e ∧ u.1.Allows e

theorem callee_used {c : Typing.Context} {x : Name} {entry : Entry} {params : List Ty} {result : Ty}
    (h : Typing.Gives (Typing.callee c x) (.func entry params result)) :
    ∃ e, c.env.get? x = some e ∧ Use.Allows .callee e := by
  unfold Typing.callee at h
  split at h
  · rename_i f hf
    exact ⟨_, hf, trivial⟩
  · rename_i cls hc
    exact ⟨_, hc, trivial⟩
  · simp at h

mutual

theorem Expr.Typed.uses {c : Typing.Context} : ∀ {e : Expr}, e.Typed c → e.Valid →
    ∀ u ∈ e.uses, Used c u
  | .lit _, _, _ => by simp [Expr.uses]
  | .name id, h, hv => by
    simp only [Expr.Typed, Expr.Valid] at h hv
    obtain ⟨t, -, hget⟩ := h
    simp only [Expr.uses, List.forall_mem_singleton]
    exact ⟨hv, _, hget, trivial⟩
  | .unary _ _ e, h, hv => by
    simp only [Expr.Typed, Expr.Valid] at h hv
    simp only [Expr.uses]
    exact h.1.uses hv
  | .binary _ l _ r, h, hv => by
    simp only [Expr.Typed, Expr.Valid] at h hv
    simp only [Expr.uses, List.forall_mem_append]
    exact ⟨h.1.uses hv.1, h.2.1.uses hv.2⟩
  | .cond _ test yes no, h, hv => by
    simp only [Expr.Typed, Expr.Valid] at h hv
    simp only [Expr.uses, List.forall_mem_append]
    exact ⟨⟨h.1.uses hv.1, h.2.2.1.uses hv.2.1⟩, h.2.2.2.1.uses hv.2.2⟩
  | .list _ elems, h, hv => by
    simp only [Expr.Typed, Expr.Valid] at h hv
    simp only [Expr.uses]
    exact Expr.AllTyped.uses h.1 hv
  | .index _ seq i, h, hv => by
    simp only [Expr.Typed, Expr.Valid] at h hv
    simp only [Expr.uses, List.forall_mem_append]
    exact ⟨h.1.uses hv.1, h.2.1.uses hv.2⟩
  | .member _ object _, h, hv => by
    simp only [Expr.Typed, Expr.Valid] at h hv
    simp only [Expr.uses]
    exact h.1.uses hv.1
  | .call _ id args, h, hv => by
    simp only [Expr.Typed, Expr.Valid] at h hv
    obtain ⟨hargs, entry, params, result, hcallee, -⟩ := h
    simp only [Expr.uses, List.forall_mem_cons]
    exact ⟨⟨hv.1, callee_used hcallee⟩, Expr.AllTyped.uses hargs hv.2⟩
  | .methodCall _ _ object _ args, h, hv => by
    simp only [Expr.Typed, Expr.Valid] at h hv
    simp only [Expr.uses, List.forall_mem_append]
    exact ⟨h.1.uses hv.1, Expr.AllTyped.uses h.2.1 hv.2.2⟩

theorem Expr.AllTyped.uses {c : Typing.Context} : ∀ {es : List Expr}, Expr.AllTyped c es →
    Expr.AllValid es → ∀ u ∈ Expr.allUses es, Used c u
  | [], _, _ => by simp [Expr.allUses]
  | e :: es, h, hv => by
    simp only [Expr.AllTyped, Expr.AllValid] at h hv
    simp only [Expr.allUses, List.forall_mem_append]
    exact ⟨h.1.uses hv.1, Expr.AllTyped.uses h.2 hv.2⟩

end

mutual

theorem Stmt.Typed.uses {c : Typing.Context} : ∀ {s : Stmt}, s.Typed c → s.Valid →
    ∀ u ∈ s.uses, Used c u
  | .expr _ e, h, hv => by
    simp only [Stmt.Typed, Stmt.Valid] at h hv
    simp only [Stmt.uses]
    exact h.uses hv
  | .assign _ targets value, h, hv => by
    simp only [Stmt.Typed, Stmt.Valid] at h hv
    obtain ⟨hvalue, t, -, htargets, -⟩ := h
    simp only [Stmt.uses, List.forall_mem_append]
    exact ⟨Expr.AllTyped.uses (Expr.allTyped_iff.2 fun e he => (htargets e he).1) hv.1,
      hvalue.uses hv.2.2⟩
  | .ite _ test yes no, h, hv => by
    simp only [Stmt.Typed, Stmt.Valid] at h hv
    simp only [Stmt.uses, List.forall_mem_append]
    exact ⟨⟨h.1.uses hv.1, Stmt.AllTyped.uses h.2.2.1 hv.2.1⟩, Stmt.AllTyped.uses h.2.2.2 hv.2.2⟩
  | .loop _ test body, h, hv => by
    simp only [Stmt.Typed, Stmt.Valid] at h hv
    simp only [Stmt.uses, List.forall_mem_append]
    exact ⟨h.1.uses hv.1, Stmt.AllTyped.uses h.2.2 hv.2⟩
  | .each _ id iterable body, h, hv => by
    simp only [Stmt.Typed, Stmt.Valid] at h hv
    obtain ⟨hiter, hbody, t, elem, var, -, -, -, hget, -⟩ := h
    simp only [Stmt.uses, List.forall_mem_cons, List.forall_mem_append]
    exact ⟨⟨hv.1, _, hget, trivial⟩, hiter.uses hv.2.1, Stmt.AllTyped.uses hbody hv.2.2⟩
  | .ret _ none, _, _ => by simp [Stmt.uses]
  | .ret _ (some e), h, hv => by
    simp only [Stmt.Typed, Stmt.Valid] at h hv
    simp only [Stmt.uses]
    exact h.1.uses hv

theorem Stmt.AllTyped.uses {c : Typing.Context} : ∀ {ss : List Stmt}, Stmt.AllTyped c ss →
    Stmt.AllValid ss → ∀ u ∈ Stmt.allUses ss, Used c u
  | [], _, _ => by simp [Stmt.allUses]
  | s :: ss, h, hv => by
    simp only [Stmt.AllTyped, Stmt.AllValid] at h hv
    simp only [Stmt.allUses, List.forall_mem_append]
    exact ⟨h.1.uses hv.1, Stmt.AllTyped.uses h.2 hv.2⟩

end

/-! ### Agreement -/

/-- The site of a function that a name stands for: it is declared in the frame that code generation
finds, under that name. -/
theorem Denotes.func_site (h : Denotes globals p chain x m) {s : FrameSite} (hm : m = .func s) :
    s ∈ p.frames ∧ ∃ parent, s.outer.head? = some parent ∧ s.frame.path = parent.childPath x := by
  induction h with
  | @top d h =>
    cases d with
    | func f =>
      cases hm
      exact ⟨(Program.mem_frames_iff Scope.empty).2 ⟨_, _, .func h⟩, p.mainFrame, rfl, rfl⟩
    | var | cls => cases hm
  | @func s' g hs h =>
    cases hm
    obtain ⟨outer, env, hn⟩ := (Program.mem_frames_iff Scope.empty).1 hs
    exact ⟨(Program.mem_frames_iff Scope.empty).2 ⟨_, _, hn.inner h⟩, s'.frame, rfl, rfl⟩
  | builtin | param | var | global => cases hm
  | «nonlocal» _ _ _ _ ih | outer _ _ _ ih => exact ih hm

theorem label_of_path {s : FrameSite} {parent : Frame} (h : s.frame.path = parent.childPath x) :
    s.frame.label = parent.childLabel x := by
  have hne : parent.childPath x ≠ [] := by simp [Frame.childPath]
  unfold Frame.label Frame.childLabel Frame.childName Frame.name
  rw [h]
  cases hpath : parent.childPath x with
  | nil => exact absurd hpath hne
  | cons y path => rfl

/-- For every name in a body, analysis and code generation find the same declaration: the storage
of a variable with its type, or the site of a function with its signature. -/
theorem scopes_agree {source : Bytes} {globals : Scope} {p : Program} (h : Accepts source globals p)
    {b : Body} (hb : b ∈ p.bodies) {u : Use} {x : Name} (hu : (u, x) ∈ Stmt.allUses b.stmts) :
    ∃ m, Denotes globals p b.chain x m ∧ (∀ m', Denotes globals p b.chain x m' → m' = m) ∧
      (tables globals b.chain).get? x = some m.entry ∧ u.Allows m.entry ∧
      match u with
      | .var => m.storage? = some (Frame.resolve x b.chain)
      | .callee => ((Frame.resolveFunc? x b.chain).isSome ↔ ∃ s, m = .func s) ∧
          ∀ s, m = .func s → s ∈ p.frames ∧ ∃ parent, Frame.resolveFunc? x b.chain = some parent ∧
            s.outer.head? = some parent ∧ s.frame.path = parent.childPath x ∧
            s.frame.label = parent.childLabel x := by
  have hp := h.accepted
  obtain ⟨c, -, -, henv, htyped⟩ := hp.body_typed hb
  obtain ⟨hx, e, hget, hallows⟩ := Stmt.AllTyped.uses htyped (hp.body_valid hb) _ hu
  rw [henv] at hget
  obtain ⟨m, hm⟩ := exists_denotes hb hp hx hget
  obtain rfl : m.entry = e := Option.some.inj ((hm.get? hp).symm.trans hget)
  refine ⟨m, hm, fun m' hm' => hm'.unique hb hp.declared hm, hget, hallows, ?_⟩
  cases u with
  | var =>
    obtain ⟨t, ht⟩ : ∃ t, m.entry = .value t := by
      cases hentry : m.entry with
      | value t => exact ⟨t, rfl⟩
      | func | cls => simp [hentry, Use.Allows] at hallows
    obtain ⟨st, hst⟩ := Option.isSome_iff_exists.1
      (storage?_isSome (hm.not_builtin_value (t := t)) ht)
    dsimp only
    rw [hm.resolve hp hx hst, hst]
  | callee =>
    have hnone : m.storage? = none := by
      cases m with
      | top | param | var => simp [Meaning.entry, Use.Allows] at hallows
      | func | cls | builtin => rfl
    have hfunc := hm.resolveFunc? hp hx hnone
    refine ⟨?_, ?_⟩
    · rw [hfunc]
      constructor
      · intro hsome
        cases m with
        | func s => exact ⟨s, rfl⟩
        | _ => cases hsome
      · rintro ⟨s, rfl⟩
        obtain ⟨-, parent, hhead, -⟩ := hm.func_site rfl
        rw [Meaning.parent?, hhead]
        rfl
    · rintro s rfl
      obtain ⟨hs, parent, hhead, hpath⟩ := hm.func_site rfl
      exact ⟨hs, parent, hfunc.trans hhead, hhead, hpath, label_of_path hpath⟩

/-- A function in a function with names of all kinds. -/
def nesting : Bytes :=
  txt "x:int = 1\ndef f(a:int):\n  y:int = 2\n  def g():\n    nonlocal y\n    global x\n" ++
    txt "    y = a\n    x = y\n  g()\nf(3)\n"

theorem nesting_agrees : ∃ globals p, Accepts nesting globals p ∧
    ∃ b ∈ p.bodies, b.chain.length = 3 ∧ (.var, txt "y") ∈ Stmt.allUses b.stmts ∧
      ∃ m, Denotes globals p b.chain (txt "y") m ∧
        m.storage? = some (Frame.resolve (txt "y") b.chain) := by
  have hrun : (accepted? nesting).any (fun r => r.2.bodies.any fun b =>
      b.chain.length = 3 ∧ (.var, txt "y") ∈ Stmt.allUses b.stmts) = true := by decide +kernel
  obtain ⟨⟨globals, p⟩, hr, hbody⟩ := (Option.any_eq_true _ _).1 hrun
  obtain ⟨b, hb, hprop⟩ := List.any_eq_true.1 hbody
  obtain ⟨hlen, hu⟩ := of_decide_eq_true hprop
  obtain ⟨m, hm, -, -, -, hst⟩ := scopes_agree (accepts_of_accepted? hr) hb hu
  exact ⟨globals, p, accepts_of_accepted? hr, b, hb, hlen, hu, m, hm, hst⟩

end ChocoRv
