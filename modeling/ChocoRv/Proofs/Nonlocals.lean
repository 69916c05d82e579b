import ChocoRv.Proofs.ScopeAgreement

/-!
# Names of the function around

A `nonlocal` declaration takes a name from the table of the function around. That table holds the
parameters and variables of this function, and also what it takes from elsewhere by declarations of
its own. So the search for the name passes one `nonlocal` declaration after the other, outwards, and
ends at a function that has a parameter or variable of that name or that declares it `global`.
-/

namespace ChocoRv

variable {globals : Scope} {p : Program} {isClass : Name → Bool} {global outer : Values}
  {s t : FrameSite} {env : Env} {f : FuncDef} {x : Name}

/-! ### The variables in a table -/

namespace FuncDef

/-- The function has a parameter or variable of that name. -/
def Owns (f : FuncDef) (x : Name) : Prop :=
  (∃ v ∈ f.params, v.name.name = x) ∨ ∃ d, .var d ∈ f.decls ∧ d.name = x

/-- A variable in the table of a function is its own or taken from elsewhere. -/
theorem value?_values (h : ((f.values global outer).value? x).isSome) (hx : x ≠ returnEntry) :
    f.Owns x ∨ (∃ loc id, .global loc id ∈ f.decls ∧ id.name = x) ∨
      ∃ loc id, .nonlocal loc id ∈ f.decls ∧ id.name = x := by
  obtain ⟨ty, hty⟩ := Option.isSome_iff_exists.1 h
  have hmem := Bindings.mem_of_get? (Bindings.value?_eq_some_iff.1 hty)
  rw [values, List.mem_append, List.mem_append] at hmem
  rcases hmem with (hmem | hmem) | hmem
  · obtain ⟨v, hv, heq⟩ := List.mem_map.1 hmem
    exact .inl (.inl ⟨v, hv, (Prod.mk.inj heq).1⟩)
  · obtain ⟨d, hd, hbinding⟩ := List.mem_filterMap.1 hmem
    cases d with
    | var d => exact .inl (.inr ⟨d, hd, (Prod.mk.inj (Option.some.inj hbinding)).1⟩)
    | global loc id =>
      obtain ⟨_, -, heq⟩ := Option.map_eq_some_iff.1 hbinding
      exact .inr (.inl ⟨loc, id, hd, (Prod.mk.inj heq).1⟩)
    | «nonlocal» loc id =>
      obtain ⟨_, -, heq⟩ := Option.map_eq_some_iff.1 hbinding
      exact .inr (.inr ⟨loc, id, hd, (Prod.mk.inj heq).1⟩)
    | func g => cases hbinding
  · exact absurd (Prod.mk.inj (List.mem_singleton.1 hmem)).1 hx

end FuncDef

/-- A name that a function owns is kept in its frame. -/
theorem Program.Nested.resolve_owned (hn : p.Nested globals s outer env) (hp : p.Declared globals)
    (h : s.defn.Owns x) :
    ∃ o, s.frame.offset? x = some o ∧ Frame.resolve x s.chain = .slot s.frame o := by
  have hd := hn.declared hp
  have hsearch : s.frame.globals.contains x = false ∧ s.frame.nonlocals.contains x = false := by
    rcases h with ⟨v, hv, rfl⟩ | ⟨d, hdecl, rfl⟩
    · obtain ⟨hg, hnl, -⟩ := frame_of_no_decl hn.frame_eq fun d hd' heq =>
        hd.param_ne_decl hv hd' heq.symm
      exact ⟨hg, hnl⟩
    · obtain ⟨hg, hnl, -⟩ := frame_of_decl hn.frame_eq hd hdecl
      exact ⟨hg, hnl⟩
  have hoffset : ∃ o, s.frame.offset? x = some o := by
    rcases h with ⟨v, hv, hname⟩ | ⟨d, hdecl, hname⟩
    · obtain ⟨i, hi⟩ := List.mem_iff_getElem?.1 hv
      exact ⟨_, (offset?_eq_some_iff hn.frame_eq hd).2 (.inl ⟨i, v, hi, hname, rfl⟩)⟩
    · have hvar : d ∈ s.defn.decls.filterMap LocalDecl.var? :=
        List.mem_filterMap.2 ⟨_, hdecl, rfl⟩
      obtain ⟨k, hk⟩ := List.mem_iff_getElem?.1 hvar
      exact ⟨_, (offset?_eq_some_iff hn.frame_eq hd).2 (.inr ⟨k, d, hk, hname, rfl⟩)⟩
  obtain ⟨o, ho⟩ := hoffset
  refine ⟨o, ho, ?_⟩
  rw [resolve_chain hn.depth_ne_zero, hsearch.1, hsearch.2, ho]
  rfl

/-! ### The search -/

/-- Among some frames, innermost first, those before the function `t` declare the name `nonlocal`. -/
structure Program.Reaches (p : Program) (x : Name) (frames : List Frame) (t : FrameSite) : Prop where
  mem : t ∈ p.frames
  between : ∃ between, frames = between ++ t.chain ∧ ∀ fr ∈ between, x ∈ fr.nonlocals

/-- The storage of a `nonlocal` name that is looked for in some frames: that of a parameter or variable
of a function that the search reaches, or a global variable that this function takes the name for. -/
def Program.Finds (p : Program) (x : Name) (frames : List Frame) (storage : Frame.Storage) : Prop :=
  ∃ t, p.Reaches x frames t ∧
    ((t.defn.Owns x ∧ ∃ o, t.frame.offset? x = some o ∧ storage = .slot t.frame o) ∨
      (x ∈ t.frame.globals ∧ storage = .global (globalLabel x)))

namespace Program

variable {storage : Frame.Storage}

theorem Finds.step (h : p.Finds x s.outer storage) (hx : x ∈ s.frame.nonlocals) :
    p.Finds x s.chain storage := by
  obtain ⟨t, ⟨hmem, between, hframes, hall⟩, hfound⟩ := h
  refine ⟨t, ⟨hmem, s.frame :: between, ?_, List.forall_mem_cons.2 ⟨hx, hall⟩⟩, hfound⟩
  rw [FrameSite.chain, hframes, List.cons_append]

theorem Reaches.self (hs : s ∈ p.frames) : p.Reaches x s.chain s :=
  ⟨hs, [], rfl, List.forall_mem_nil _⟩

/-- A name that a function declares `nonlocal` is looked for around it. -/
theorem Nested.resolve_nonlocal (hn : p.Nested globals s outer env) (hp : p.Declared globals)
    {loc : Loc} {id : Ident} (hid : .nonlocal loc id ∈ s.defn.decls) :
    id.name ∈ s.frame.nonlocals ∧
      Frame.resolve id.name s.chain = Frame.resolve id.name s.outer := by
  obtain ⟨hg, hnl, -⟩ := frame_of_decl hn.frame_eq (hn.declared hp) hid
  have hname : (LocalDecl.nonlocal loc id).ident.name = id.name := rfl
  rw [hname] at hg hnl
  refine ⟨List.contains_iff_mem.1 hnl, ?_⟩
  rw [resolve_chain hn.depth_ne_zero, hg, hnl]
  rfl

/-- A variable in the table of the function around is found. -/
theorem Nested.finds (hn : p.Nested globals s outer env) (hp : p.Declared globals)
    (hx : x ≠ returnEntry) (h : (outer x).isSome) :
    p.Finds x s.outer (Frame.resolve x s.outer) := by
  induction hn with
  | func _ | method _ _ => cases h
  | @inner s outer env g hn hg ih =>
    have hmem : s ∈ p.frames := (mem_frames_iff globals).2 ⟨_, _, hn⟩
    rcases FuncDef.value?_values h hx with howns | hglobal | ⟨loc, id, hid, rfl⟩
    · exact ⟨s, .self hmem, .inl ⟨howns, hn.resolve_owned hp howns⟩⟩
    · have hcontains := (contains_globals hn.frame_eq).2 hglobal
      refine ⟨s, .self hmem, .inr ⟨List.contains_iff_mem.1 hcontains, ?_⟩⟩
      show Frame.resolve x s.chain = _
      rw [resolve_chain hn.depth_ne_zero, hcontains]
      rfl
    · obtain ⟨hnonlocal, hresolve⟩ := hn.resolve_nonlocal hp hid
      show p.Finds id.name s.chain (Frame.resolve id.name s.chain)
      rw [hresolve]
      exact (ih ((hn.declared hp).bound _ hid)).step hnonlocal

end Program

/-- Where declaration analysis reports nothing, a `nonlocal` name leads past functions that declare
it `nonlocal` too to a function around that has a parameter or variable of that name, and it is kept
there. The only exception is a function around that declares the name `global`. -/
theorem nonlocal_finds {source : Bytes} (hparse : parse source = .ok p)
    (hdeclare : p.declare.diagnostics = []) (hs : s ∈ p.frames) (hx : x ∈ s.frame.nonlocals) :
    p.Finds x s.outer (Frame.resolve x s.chain) := by
  have hvalid := parse_valid hparse
  have hp : p.Resolved p.declare.value := Program.resolved hvalid (by rw [← hdeclare])
  obtain ⟨outer, env, hn⟩ := (Program.mem_frames_iff p.declare.value).1 hs
  obtain ⟨loc, id, hid, rfl⟩ := (contains_nonlocals hn.frame_eq).1 (List.contains_iff_mem.2 hx)
  have hname : ValidName id.name := ((hn.valid hvalid).decls _ hid).ident
  rw [(hn.resolve_nonlocal hp.declared hid).2]
  exact hn.finds hp.declared hname.ne_return ((hn.declared hp.declared).bound _ hid)

/-- A function two functions inside the one that has the variable. -/
def twiceNonlocal : Bytes :=
  txt "def f(x:int):\n  def g():\n    nonlocal x\n    def h():\n      nonlocal x\n" ++
    txt "      x = 1\n    h()\n  g()\n"

theorem twiceNonlocal_finds : ∃ p : Program, parse twiceNonlocal = .ok p ∧
    p.declare.diagnostics = [] ∧ ∃ s ∈ p.frames, s.frame.path = [txt "f", txt "g", txt "h"] ∧
      txt "x" ∈ s.frame.nonlocals ∧
      p.Finds (txt "x") s.outer (Frame.resolve (txt "x") s.chain) := by
  have hrun : (parse twiceNonlocal).toOption.any (fun p =>
      decide (p.declare.diagnostics = [] ∧ ∃ s ∈ p.frames,
        s.frame.path = [txt "f", txt "g", txt "h"] ∧ txt "x" ∈ s.frame.nonlocals)) = true := by
    decide +kernel
  obtain ⟨p, hparse, htest⟩ := ok_of_any hrun
  obtain ⟨hdeclare, s, hs, hpath, hx⟩ := of_decide_eq_true htest
  exact ⟨p, hparse, hdeclare, s, hs, hpath, hx, nonlocal_finds hparse hdeclare hs hx⟩

/-- The function around takes the name from the globals. -/
def nonlocalGlobal : Bytes :=
  txt "x:int = 0\ndef f():\n  global x\n  def g():\n    nonlocal x\n    pass\n  g()\n"

theorem nonlocalGlobal_is_global : ∃ p : Program, parse nonlocalGlobal = .ok p ∧
    p.declare.diagnostics = [] ∧ ∃ s ∈ p.frames, txt "x" ∈ s.frame.nonlocals ∧
      Frame.resolve (txt "x") s.chain = .global (globalLabel (txt "x")) := by
  have hrun : (parse nonlocalGlobal).toOption.any (fun p =>
      decide (p.declare.diagnostics = [] ∧ ∃ s ∈ p.frames, txt "x" ∈ s.frame.nonlocals ∧
        Frame.resolve (txt "x") s.chain = .global (globalLabel (txt "x")))) = true := by
    decide +kernel
  obtain ⟨p, hparse, htest⟩ := ok_of_any hrun
  exact ⟨p, hparse, of_decide_eq_true htest⟩

end ChocoRv
