import ChocoRv.Proofs.CallSites

/-!
# Callees

The functions that a call site can enter. For a method these are the ones in one slot of all
dispatch tables of the class and its subclasses. Each of them has a frame with as many parameters
as the call has arguments.
-/

namespace ChocoRv

open Asm Codegen

/-- The word of a dispatch table at an offset. -/
def ClassLayout.HasAt (l : ClassLayout) (o : Int) (label : Label) : Prop :=
  ∃ i : Nat, (wordSize * i : Int) = o ∧
    (dispatchTable l)[i + 1]? = some (.wordAddress label [])

/-- A function that the call may enter, by its label. A method is looked up in the table of any
class below that of the receiver, at the offset that the class of the receiver gives. -/
inductive Expr.Enters (c : Context) : Expr → Label → Prop
  | func {m : Mark} {id : Ident} {args : List Expr} {parent : Frame}
      (h : Frame.resolveFunc? id.name c.chain = some parent) :
    Enters c (.call m id args) (parent.childLabel id.name)
  | constructor {m : Mark} {id : Ident} {args : List Expr} {layout : ClassLayout} {o : Int}
      {l : Label} (h : Frame.resolveFunc? id.name c.chain = none)
      (hlayout : ClassLayout.find? c.layouts id.name = some layout)
      (ho : layout.methodOffset initName = .ok o) (hl : layout.HasAt o l) :
    Enters c (.call m id args) l
  | method {m m' : Mark} {object : Expr} {id : Ident} {args : List Expr}
      {layout d : ClassLayout} {o : Int} {l : Label}
      (hlayout : c.layoutOf object.type? = .ok layout)
      (ho : layout.methodOffset id.name = .ok o) (hd : d ∈ c.layouts)
      (hbelow : c.globals.hierarchy.isAncestor (.cls layout.name) (.cls d.name) = true)
      (hl : d.HasAt o l) : Enters c (.methodCall m m' object id args) l

/-- The call of `print`, `len` or `input`. -/
def Expr.Predefined (c : Context) (e : Expr) : Prop :=
  ∃ m id args l, e = .call m id args ∧ Frame.resolveFunc? id.name c.chain = none ∧
    ClassLayout.find? c.layouts id.name = none ∧ builtinFuncs.lookup id.name = some l

/-- The call makes an object. -/
def Expr.Constructs (c : Context) (e : Expr) : Prop :=
  ∃ m id args layout, e = .call m id args ∧ Frame.resolveFunc? id.name c.chain = none ∧
    ClassLayout.find? c.layouts id.name = some layout

/-- The label is that of a function with `n` parameters, and its frame has them right below the
static link in the order in which they are declared. The constructor of `object` is a routine of
the runtime and takes the object. -/
structure Program.Takes (p : Program) (l : Label) (n : Nat) : Prop where
  code : (l = txt "$object.__init__" ∧ n = 1) ∨ ∃ t ∈ p.frames, t.frame.label = l
  count : ∀ t ∈ p.frames, t.frame.label = l → t.frame.params.length = n
  param : ∀ t ∈ p.frames, t.frame.label = l → ∀ (i : Nat) x, t.frame.params[i]? = some x →
    t.frame.offset? x = some (wordSize * (n - 1 - i : Int))
  link : ∀ t ∈ p.frames, t.frame.label = l → t.frame.staticLink = wordSize * n

variable {globals : Scope} {p : Program} {layouts : List ClassLayout}

namespace ClassLayout

theorem HasAt.slot? {l : ClassLayout} {x : Name} {o : Int} {label : Label} (h : l.HasAt o label)
    (ho : l.methodOffset x = .ok o) : l.slot? x = some label := by
  obtain ⟨i, hio, hi⟩ := h
  obtain ⟨j, label', hjo, hslot, hj⟩ := dispatchTable_slot ho
  obtain rfl : i = j := by
    simp only [wordSize] at hio hjo
    omega
  cases hi.symm.trans hj
  exact hslot

theorem exists_hasAt {l : ClassLayout} {x : Name} {o : Int} (ho : l.methodOffset x = .ok o) :
    ∃ label, l.HasAt o label := by
  obtain ⟨i, label, hio, -, hi⟩ := dispatchTable_slot ho
  exact ⟨label, i, hio, hi⟩

end ClassLayout

/-- A path starts with the name of a declaration of the program. -/
theorem Program.Nested.path_head {s : FrameSite} {outer : Values} {env : Env}
    (h : p.Nested globals s outer env) : ∃ d ∈ p.decls, s.frame.path.head? = some d.ident.name := by
  induction h with
  | func hf => exact ⟨_, hf, rfl⟩
  | method hc _ => exact ⟨_, hc, rfl⟩
  | @inner s outer env g h _ ih =>
    obtain ⟨d, hd, hhead⟩ := ih
    refine ⟨d, hd, ?_⟩
    show (s.frame.path ++ [g.name]).head? = _
    rw [List.head?_append_of_ne_nil _ h.path_ne_nil, hhead]

namespace Program.Accepted

variable {x : Name} {label : Label} {ty : FuncTy}

/-- No function of a program has the label of the constructor of `object`. -/
theorem label_ne_object (hp : p.Accepted globals) {t : FrameSite} (ht : t ∈ p.frames) :
    t.frame.label ≠ txt "$object.__init__" := by
  intro hlabel
  have hplain : Plain [txt "object", initName] := ⟨by decide, by decide, by decide⟩
  have hobject : txt "$object.__init__" = marked [txt "object", initName] [] := by decide
  rw [Frame.label_eq (hp.plain ht).ne_nil, hobject] at hlabel
  have hpath := (marked_inj (hp.plain ht) hplain (.inl rfl) (.inl rfl) hlabel).1
  obtain ⟨outer, env, hn⟩ := (mem_frames_iff globals).1 ht
  obtain ⟨d, hd, hhead⟩ := hn.path_head
  rw [hpath, List.head?_cons] at hhead
  have hbuiltin : Scope.builtins.declares (txt "object") = true := by decide
  rw [Option.some.inj hhead, hp.declared.fresh d hd] at hbuiltin
  cases hbuiltin

/-- A function takes as many arguments as its type has parameters. -/
theorem takes_frame (hp : p.Accepted globals) {t : FrameSite} (ht : t ∈ p.frames) :
    p.Takes t.frame.label t.defn.ty.params.length := by
  have hcount : ∀ u ∈ p.frames, u.frame.label = t.frame.label →
      u.frame.params.length = t.defn.ty.params.length := by
    intro u hu hlabel
    obtain rfl := hp.label_inj hu ht hlabel
    obtain ⟨outer, env, hn⟩ := (mem_frames_iff globals).1 hu
    rw [hn.frame_eq]
    simp [Frame.ofFunc, FuncDef.ty]
  refine ⟨.inr ⟨t, ht, rfl⟩, hcount, fun u hu hlabel i x hx => ?_, fun u hu hlabel => ?_⟩
  · obtain ⟨outer, env, hn⟩ := (mem_frames_iff globals).1 hu
    have hparam : (u.defn.params.map (·.name.name))[i]? = some x := by
      rw [hn.frame_eq] at hx
      exact hx
    rw [List.getElem?_map] at hparam
    obtain ⟨v, hv, hvx⟩ := Option.map_eq_some_iff.1 hparam
    refine (offset?_eq_some_iff hn.frame_eq (hn.declared hp.declared)).2 (.inl ⟨i, v, hv, hvx, ?_⟩)
    rw [Frame.paramOffset, hcount u hu hlabel]
  · rw [Frame.staticLink, hcount u hu hlabel]

/-- What a class provides takes as many arguments as its type has parameters. -/
theorem takes_provided (hp : p.Accepted globals) {k : Name}
    (h : p.Provides globals k x label ty) : p.Takes label ty.params.length := by
  obtain ⟨below, k, above, -, -, hk⟩ := h
  cases hk with
  | object =>
    have hnone := fun t ht => hp.label_ne_object (t := t) ht
    exact ⟨.inl ⟨rfl, rfl⟩, fun t ht hlabel => absurd hlabel (hnone t ht),
      fun t ht hlabel => absurd hlabel (hnone t ht), fun t ht hlabel => absurd hlabel (hnone t ht)⟩
  | @method c f hc hf =>
    exact hp.takes_frame ((mem_frames_iff globals).2 ⟨_, _, .method hc hf⟩)

theorem self_mem_lineage (hp : p.Accepted globals) {k : Name}
    (hk : globals.hierarchy.knows k = true) : k ∈ globals.hierarchy.lineage k := by
  refine hp.class_induction (motive := fun k => k ∈ globals.hierarchy.lineage k)
    ?_ (fun y hy => ?_) (fun c hc _ _ => ?_) hk
  · rw [hp.lineage_object]
    exact List.mem_singleton_self _
  · rw [hp.lineage_special hy]
    exact List.mem_cons_self ..
  · rw [hp.lineage_class hc]
    exact List.mem_cons_self ..

/-- What is in the place of a method in the table of a class below takes as many arguments. -/
theorem takes_slot (hp : p.Accepted globals) (hover : p.Overrides globals)
    (h : p.layouts globals = .ok layouts) {l d : ClassLayout} (hl : l ∈ layouts) (hd : d ∈ layouts)
    (hbelow : l.name ∈ globals.hierarchy.lineage d.name)
    (hmember : globals.member? l.name x = some (.func ty)) {o : Int}
    (ho : l.methodOffset x = .ok o) (hat : d.HasAt o label) : p.Takes label ty.params.length := by
  have hknows := hp.layout_knows h hd
  obtain ⟨label₁, hprovides₁⟩ := hp.provides_of_member? (hp.layout_knows h hl) hmember
  obtain ⟨label₂, ty₂, hprovides₂, hstands⟩ := hp.provides_below hover hprovides₁ hknows hbelow
  have ho' : d.methodOffset x = .ok o :=
    ClassLayout.methodOffset_of_isPrefix (hp.layout_kept h hl hd hbelow).2 ho
  obtain ⟨label₃, ty₃, hslot, hprovides₃⟩ :=
    hp.layout_slot h hd (ClassLayout.exists_methodOffset.1 ⟨o, ho'⟩)
  cases (hat.slot? ho').symm.trans hslot
  obtain ⟨rfl, rfl⟩ := hp.provides_unique hknows hprovides₂ hprovides₃
  rw [← hstands.length]
  exact hp.takes_provided hprovides₂

/-- What a constructor call runs takes the object and nothing else. -/
theorem takes_init (hp : p.Accepted globals) (hover : p.Overrides globals)
    (h : p.layouts globals = .ok layouts) {l : ClassLayout} (hl : l ∈ layouts) {o : Int}
    (ho : l.methodOffset initName = .ok o) (hat : l.HasAt o label) : p.Takes label 1 := by
  obtain ⟨label', ty, hslot, hprovides⟩ :=
    hp.layout_slot h hl (ClassLayout.exists_methodOffset.1 ⟨o, ho⟩)
  cases (hat.slot? ho).symm.trans hslot
  rw [← hp.init_params hover (hp.layout_knows h hl) hprovides]
  exact hp.takes_provided hprovides

end Program.Accepted

end ChocoRv
