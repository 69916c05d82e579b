import ChocoRv.Proofs.Subtyping

/-!
# Dispatch

A call goes by the method that the static class of the receiver knows and runs the one in the slot
of the class that the receiver has. Both take the same arguments, because a method keeps the
signature that it inherits, step by step down the lineage. They also return the same type, unless
they are constructors: the comparison is skipped where a constructor takes nothing but the object.
-/

namespace ChocoRv

open Asm

variable {globals : Scope} {p : Program}

/-- What a call of the method `x` by the signature `g` may rely on if it runs one of signature `f`. -/
structure FuncTy.StandsFor (x : Name) (f g : FuncTy) : Prop where
  length : f.params.length = g.params.length
  params : f.params.tail = g.params.tail
  ret : x ≠ initName → f.ret = g.ret

namespace FuncTy.StandsFor

variable {x : Name} {f g k : FuncTy}

theorem refl (x : Name) (f : FuncTy) : f.StandsFor x f := ⟨rfl, rfl, fun _ => rfl⟩

theorem trans (h : f.StandsFor x g) (h' : g.StandsFor x k) : f.StandsFor x k :=
  ⟨h.length.trans h'.length, h.params.trans h'.params, fun hx => (h.ret hx).trans (h'.ret hx)⟩

theorem of_sameFrom (h : g.sameFrom 1 f = true) : f.StandsFor x g := by
  simp only [FuncTy.sameFrom, FuncTy.sameSignature, List.drop_one, Bool.and_eq_true, beq_iff_eq] at h
  obtain ⟨⟨hlength, hret⟩, hparams⟩ := h
  exact ⟨hlength.symm, hparams.symm, fun _ => hret.symm⟩

/-- Constructors that only take the object. -/
theorem of_init (hx : x = initName) (hf : f.params.length = 1) (hg : g.params.length = 1) :
    f.StandsFor x g := by
  refine ⟨hf.trans hg.symm, ?_, fun hne => absurd hx hne⟩
  obtain ⟨t, ht⟩ := List.length_eq_one_iff.1 hf
  obtain ⟨u, hu⟩ := List.length_eq_one_iff.1 hg
  rw [ht, hu, List.tail_cons, List.tail_cons]

end FuncTy.StandsFor

namespace Program.Accepted

variable {x : Name} {label : Label} {ty : FuncTy}

/-! ### Methods that classes provide and members that they know -/

/-- A class provides a method of its own, or else what its superclass provides. -/
theorem provides_class (hp : p.Accepted globals) {c : ClassDef} (hc : .cls c ∈ p.decls) :
    p.Provides globals c.name x label ty →
      (∃ f, .method f ∈ c.members ∧ f.name = x ∧ f.ty = ty ∧
        (p.topSite [c.name, f.name] (some c.name) f).frame.label = label) ∨
      (∀ f, .method f ∈ c.members → f.name ≠ x) ∧
        p.Provides globals c.super.name x label ty := by
  rintro ⟨below, k, above, hlineage, hbelow, hk⟩
  rw [hp.lineage_class hc] at hlineage
  cases below with
  | nil =>
    obtain ⟨rfl, -⟩ := List.cons.inj hlineage
    exact .inl ((hp.implements_class hc).1 hk)
  | cons b below =>
    obtain ⟨rfl, hrest⟩ := List.cons.inj hlineage
    obtain ⟨hself, hbelow⟩ := List.forall_mem_cons.1 hbelow
    refine .inr ⟨fun f hf hfx => ?_, below, k, above, hrest, hbelow, hk⟩
    exact hself _ _ ((hp.implements_class hc).2 ⟨f, hf, hfx, rfl, rfl⟩)

theorem provides_object_inv (hp : p.Accepted globals)
    (h : p.Provides globals (txt "object") x label ty) :
    x = initName ∧ label = txt "$object.__init__" ∧ ty = ⟨[.object], .noneType⟩ := by
  obtain ⟨below, k, above, hlineage, -, hk⟩ := h
  rw [hp.lineage_object] at hlineage
  have hmem : k ∈ [txt "object"] := by
    rw [hlineage]
    simp
  obtain rfl := List.mem_singleton.1 hmem
  generalize hobject : txt "object" = k at hk
  cases hk with
  | object => exact ⟨rfl, rfl, rfl⟩
  | @method c f hc hf =>
    have hbuiltin : Scope.builtins.declares (txt "object") = true := by decide
    rw [hobject] at hbuiltin
    cases hbuiltin.symm.trans (hp.declared.fresh _ hc)

theorem provides_special_inv (hp : p.Accepted globals) {k : Name} (hk : k ∈ specialClasses)
    (h : p.Provides globals k x label ty) : p.Provides globals (txt "object") x label ty := by
  obtain ⟨below, j, above, hlineage, hbelow, hj⟩ := h
  rw [hp.lineage_special hk] at hlineage
  cases below with
  | nil =>
    obtain ⟨rfl, -⟩ := List.cons.inj hlineage
    exact absurd hj (hp.not_implements_special hk)
  | cons b below =>
    obtain ⟨rfl, hrest⟩ := List.cons.inj hlineage
    exact ⟨below, j, above, hp.lineage_object.trans hrest, (List.forall_mem_cons.1 hbelow).2, hj⟩

theorem provides_unique (hp : p.Accepted globals) {k : Name}
    (hk : globals.hierarchy.knows k = true) {label' : Label} {ty' : FuncTy}
    (h : p.Provides globals k x label ty) (h' : p.Provides globals k x label' ty') :
    label = label' ∧ ty = ty' := by
  have hobject : p.Provides globals (txt "object") x label ty →
      p.Provides globals (txt "object") x label' ty' → label = label' ∧ ty = ty' := by
    intro h h'
    obtain ⟨-, rfl, rfl⟩ := hp.provides_object_inv h
    obtain ⟨-, rfl, rfl⟩ := hp.provides_object_inv h'
    exact ⟨rfl, rfl⟩
  refine hp.class_induction (motive := fun k => p.Provides globals k x label ty →
    p.Provides globals k x label' ty' → label = label' ∧ ty = ty') hobject ?_ ?_ hk h h'
  · exact fun y hy h h' => hobject (hp.provides_special_inv hy h) (hp.provides_special_inv hy h')
  · intro c hc _ ih h h'
    rcases hp.provides_class hc h with ⟨f, hf, hfx, rfl, rfl⟩ | ⟨hnone, h⟩
    · rcases hp.provides_class hc h' with ⟨g, hg, hgx, rfl, rfl⟩ | ⟨hnone, -⟩
      · have heq : Member.method f = .method g :=
          List.inj_on_of_nodup_map (hp.declared.cls c hc).2.nodup hf hg (hfx.trans hgx.symm)
        cases heq
        exact ⟨rfl, rfl⟩
      · exact absurd hfx (hnone f hf)
    · rcases hp.provides_class hc h' with ⟨g, hg, hgx, -⟩ | ⟨-, h'⟩
      · exact absurd hgx (hnone g hg)
      · exact ih h h'

/-- What a class knows as a method it provides. -/
theorem provides_of_member? (hp : p.Accepted globals) {k : Name}
    (hk : globals.hierarchy.knows k = true) (h : globals.member? k x = some (.func ty)) :
    ∃ label, p.Provides globals k x label ty := by
  have hobject : globals.member? (txt "object") x = some (.func ty) →
      (x, ty) = (initName, ⟨[.object], .noneType⟩) := by
    intro h
    rw [hp.member?_object] at h
    cases List.mem_singleton.1 (Bindings.mem_of_get? h)
    rfl
  refine hp.class_induction (motive := fun k => globals.member? k x = some (.func ty) →
    ∃ label, p.Provides globals k x label ty) ?_ ?_ ?_ hk h
  · intro h
    obtain ⟨rfl, rfl⟩ := Prod.mk.inj (hobject h)
    exact ⟨_, hp.provides_object⟩
  · intro y hy h
    rw [hp.member?_special hy] at h
    obtain ⟨rfl, rfl⟩ := Prod.mk.inj (hobject h)
    exact ⟨_, hp.provides_special hy⟩
  · intro c hc _ ih h
    by_cases hown : ∃ m ∈ c.members, m.ident.name = x
    · obtain ⟨m, hm, rfl⟩ := hown
      cases m with
      | attr d => cases (hp.member?_attr hc hm).symm.trans h
      | method f =>
        cases (hp.member?_method hc hm).symm.trans h
        exact ⟨_, hp.provides_own hc hm⟩
    · have hself : x ≠ c.name := by
        rintro rfl
        cases (hp.member?_self hc).symm.trans h
      have hnone : ∀ m ∈ c.members, m.ident.name ≠ x := fun m hm hmx => hown ⟨m, hm, hmx⟩
      rw [hp.member?_inherited hc hself hnone] at h
      obtain ⟨label, hprovides⟩ := ih h
      exact ⟨label, hp.provides_inherited hc (fun f hf => hnone _ hf) hprovides⟩

/-- What a class provides it knows as a method, unless a class hides it. -/
theorem member?_of_provides (hp : p.Accepted globals) (hover : p.Overrides globals) {k : Name}
    (hk : globals.hierarchy.knows k = true) (h : p.Provides globals k x label ty) :
    globals.member? k x = some (.func ty) ∨
      x = initName ∧ initName ∈ globals.hierarchy.lineage k ∧
        ∃ cls, globals.member? k x = some (.cls cls) := by
  have hobject : p.Provides globals (txt "object") x label ty →
      globals.member? (txt "object") x = some (.func ty) := by
    intro h
    obtain ⟨rfl, rfl, rfl⟩ := hp.provides_object_inv h
    rw [hp.member?_object]
    rfl
  refine hp.class_induction (motive := fun k => p.Provides globals k x label ty →
    globals.member? k x = some (.func ty) ∨
      x = initName ∧ initName ∈ globals.hierarchy.lineage k ∧
        ∃ cls, globals.member? k x = some (.cls cls)) ?_ ?_ ?_ hk h
  · exact fun h => .inl (hobject h)
  · intro y hy h
    rw [hp.member?_special hy]
    exact .inl (hobject (hp.provides_special_inv hy h))
  · intro c hc _ ih h
    rcases hp.provides_class hc h with ⟨f, hf, rfl, rfl, -⟩ | ⟨hnone, h⟩
    · exact .inl (hp.member?_method hc hf)
    rw [hp.lineage_class hc]
    by_cases hself : x = c.name
    · subst hself
      rcases ih h with hsuper | ⟨hinit, -, -⟩
      · rcases hp.notClass_of_member? (hp.knows_super hc) hsuper (by simp) with heq | hnot
        · have hname : c.name = initName := congrArg Prod.fst heq
          exact .inr ⟨hname, hname ▸ List.mem_cons_self .., _, hp.member?_self hc⟩
        · cases (hp.bindsClass hc).symm.trans hnot
      · exact .inr ⟨hinit, hinit ▸ List.mem_cons_self .., _, hp.member?_self hc⟩
    · by_cases hown : ∃ m ∈ c.members, m.ident.name = x
      · obtain ⟨m, hm, rfl⟩ := hown
        cases m with
        | method f => exact absurd rfl (hnone f hm)
        | attr d =>
          have hnew := hover.attr hc hm
          rcases ih h with hsuper | ⟨-, -, cls, hsuper⟩
          · cases hnew.symm.trans hsuper
          · cases hnew.symm.trans hsuper
      · rw [hp.member?_inherited hc hself fun m hm hmx => hown ⟨m, hm, hmx⟩]
        rcases ih h with hsuper | ⟨hinit, hmem, hcls⟩
        · exact .inl hsuper
        · exact .inr ⟨hinit, List.mem_cons_of_mem _ hmem, hcls⟩

/-! ### Signatures along a lineage -/

/-- A method stands for the one that its class inherits. -/
theorem method_standsFor (hp : p.Accepted globals) (hover : p.Overrides globals) {c : ClassDef}
    (hc : .cls c ∈ p.decls) {f : FuncDef} (hf : .method f ∈ c.members)
    (h : p.Provides globals c.super.name f.name label ty) : f.ty.StandsFor f.name ty := by
  have hmember : globals.member? c.super.name f.name = some (.func ty) := by
    rcases hp.member?_of_provides hover (hp.knows_super hc) h with hsuper | ⟨-, -, cls, hsuper⟩
    · exact hsuper
    · obtain ⟨g, hg, -⟩ := hover.method hc hf hsuper
      cases hg
  obtain ⟨g, hg, hsame⟩ := hover.method hc hf hmember
  cases hg
  rcases hsame with hsame | ⟨hinit, hone, hone'⟩
  · exact .of_sameFrom hsame
  · exact .of_init hinit hone hone'

/-- Below a class that provides a method every class provides one that stands for it. -/
theorem provides_below (hp : p.Accepted globals) (hover : p.Overrides globals) {d : Name}
    (hd : p.Provides globals d x label ty) {k : Name} (hk : globals.hierarchy.knows k = true)
    (hbelow : d ∈ globals.hierarchy.lineage k) :
    ∃ label' ty', p.Provides globals k x label' ty' ∧ ty'.StandsFor x ty := by
  refine hp.class_induction (motive := fun k => d ∈ globals.hierarchy.lineage k →
    ∃ label' ty', p.Provides globals k x label' ty' ∧ ty'.StandsFor x ty) ?_ ?_ ?_ hk hbelow
  · intro hmem
    rw [hp.lineage_object, List.mem_singleton] at hmem
    exact ⟨label, ty, hmem ▸ hd, .refl x ty⟩
  · intro y hy hmem
    rw [hp.lineage_special hy] at hmem
    rcases List.mem_cons.1 hmem with rfl | hmem
    · exact ⟨label, ty, hd, .refl x ty⟩
    · rw [List.mem_singleton.1 hmem] at hd
      obtain ⟨rfl, rfl, rfl⟩ := hp.provides_object_inv hd
      exact ⟨_, _, hp.provides_special hy, .refl _ _⟩
  · intro c hc _ ih hmem
    rw [hp.lineage_class hc] at hmem
    rcases List.mem_cons.1 hmem with rfl | hmem
    · exact ⟨label, ty, hd, .refl x ty⟩
    · obtain ⟨label', ty', hsuper, hstands⟩ := ih hmem
      by_cases hown : ∃ f, .method f ∈ c.members ∧ f.name = x
      · obtain ⟨f, hf, rfl⟩ := hown
        exact ⟨_, f.ty, hp.provides_own hc hf, (hp.method_standsFor hover hc hf hsuper).trans hstands⟩
      · have hnone : ∀ f, .method f ∈ c.members → f.name ≠ x := fun f hf hfx => hown ⟨f, hf, hfx⟩
        exact ⟨label', ty', hp.provides_inherited hc hnone hsuper, hstands⟩

/-- Every class has `object` at the end of its lineage. -/
theorem object_mem_lineage (hp : p.Accepted globals) {k : Name}
    (hk : globals.hierarchy.knows k = true) : txt "object" ∈ globals.hierarchy.lineage k := by
  refine hp.class_induction (motive := fun k => txt "object" ∈ globals.hierarchy.lineage k)
    ?_ (fun y hy => ?_) (fun c hc _ ih => ?_) hk
  · rw [hp.lineage_object]
    exact List.mem_singleton_self _
  · rw [hp.lineage_special hy]
    exact List.mem_cons_of_mem _ (List.mem_singleton_self _)
  · rw [hp.lineage_class hc]
    exact List.mem_cons_of_mem _ ih

/-- A constructor takes the object and nothing else, because that of `object` does. -/
theorem init_params (hp : p.Accepted globals) (hover : p.Overrides globals) {k : Name}
    (hk : globals.hierarchy.knows k = true) (h : p.Provides globals k initName label ty) :
    ty.params.length = 1 := by
  obtain ⟨label', ty', hprovides, hstands⟩ :=
    hp.provides_below hover hp.provides_object hk (hp.object_mem_lineage hk)
  obtain ⟨-, rfl⟩ := hp.provides_unique hk h hprovides
  exact hstands.length

end Program.Accepted

/-- The slot that a call goes through has a method of as many parameters, of the same types after
the first, and of the same result, except that a constructor may return anything and is only
promised to have one parameter. The method is the member that the dynamic class knows, unless a
class called `__init__` hides it. -/
theorem dispatch_type_safe {source : Bytes} (h : Accepts source globals p) :
    ∃ layouts, p.layouts globals = .ok layouts ∧ ∀ d ∈ layouts, ∀ c ∈ layouts,
      globals.hierarchy.isAncestor (.cls d.name) (.cls c.name) = true →
      ∀ x g, globals.member? d.name x = some (.func g) →
        ∃ (i : Nat) (label : Label) (f : FuncTy), c.methodOffset x = .ok (wordSize * i : Int) ∧
          (Codegen.dispatchTable c)[i + 1]? = some (.wordAddress label []) ∧
          p.Provides globals c.name x label f ∧
          f.params.length = g.params.length ∧ f.params.tail = g.params.tail ∧
          (x ≠ initName → f.ret = g.ret) ∧ (x = initName → f.params.length = 1) ∧
          ((x = initName → initName ∉ globals.hierarchy.lineage c.name) →
            globals.member? c.name x = some (.func f)) := by
  have hp := h.accepted
  have hover := h.overrides
  obtain ⟨layouts, hlayouts, -, hsound⟩ := hp.layouts
  refine ⟨layouts, hlayouts, fun d hd c hc hanc x g hg => ?_⟩
  have hdk := hp.layout_knows hlayouts hd
  have hck := hp.layout_knows hlayouts hc
  rw [Hierarchy.isAncestor_cls (hp.class_ne_nil hck)] at hanc
  obtain ⟨label, hdprovides⟩ := hp.provides_of_member? hdk hg
  obtain ⟨label', f, hcprovides, hstands⟩ := hp.provides_below hover hdprovides hck hanc
  have hplace : x ∈ c.methodNames :=
    (hp.layout_kept hlayouts hd hc hanc).2.subset ((hsound d hd).covers.method hg)
  obtain ⟨o, ho⟩ := ClassLayout.methodOffset_ok hplace
  obtain ⟨i, label'', hio, hslot, htable⟩ := ClassLayout.dispatchTable_slot ho
  obtain ⟨label₀, f₀, hslot₀, hprovides₀⟩ := hp.layout_slot hlayouts hc hplace
  cases hslot.symm.trans hslot₀
  obtain ⟨rfl, rfl⟩ := hp.provides_unique hck hcprovides hprovides₀
  refine ⟨i, label', f, hio ▸ ho, htable, hcprovides, hstands.length, hstands.params, hstands.ret,
    ?_, fun hx => ?_⟩
  · rintro rfl
    exact hp.init_params hover hck hcprovides
  · rcases hp.member?_of_provides hover hck hcprovides with hmember | ⟨hinit, hmem, -⟩
    · exact hmember
    · exact absurd hmem (hx hinit)

theorem overriding_dispatch : ∃ globals p layouts, Accepts overriding globals p ∧
    p.layouts globals = .ok layouts ∧ ∃ c ∈ layouts, c.name = txt "B" ∧
      ∃ label f, p.Provides globals (txt "B") (txt "f") label f ∧ f.params.length = 1 ∧
        f.ret = .int ∧ globals.member? (txt "B") (txt "f") = some (.func f) := by
  have hrun : (accepted? overriding).any (fun r => (r.2.layouts r.1).toOption.any fun layouts =>
      layouts.any fun d => layouts.any fun c => d.name = txt "A" ∧ c.name = txt "B" ∧
        r.1.hierarchy.isAncestor (.cls d.name) (.cls c.name) = true ∧
        r.1.member? d.name (txt "f") = some (.func ⟨[.cls (txt "A")], .int⟩)) = true := by
    decide +kernel
  obtain ⟨⟨globals, p⟩, hr, hlayouts⟩ := (Option.any_eq_true _ _).1 hrun
  obtain ⟨ls, hls, hd⟩ := (Option.any_eq_true _ _).1 hlayouts
  obtain ⟨d, hd, hc⟩ := List.any_eq_true.1 hd
  obtain ⟨c, hc, hprop⟩ := List.any_eq_true.1 hc
  obtain ⟨-, hname, hanc, hmember⟩ := of_decide_eq_true hprop
  obtain ⟨layouts, hlayouts, hall⟩ := dispatch_type_safe (accepts_of_accepted? hr)
  dsimp only at hls hanc hmember
  rw [hlayouts] at hls
  cases hls
  obtain ⟨-, label, f, -, -, hprovides, hlength, -, hret, -, hf⟩ := hall d hd c hc hanc _ _ hmember
  have hne : txt "f" ≠ initName := by decide
  rw [hname] at hprovides hf
  exact ⟨globals, p, ls, accepts_of_accepted? hr, hlayouts, c, hc, hname, label, f, hprovides,
    hlength, hret hne, hf fun heq => absurd heq hne⟩

/-- A constructor that returns a number, where that of `object` returns `None`. -/
def initReturns : Bytes := txt "class A(object):\n  def __init__(self:A)->int:\n    return 5\n"

theorem init_changes_result : ∃ globals p, Accepts initReturns globals p ∧ ∃ g f,
    globals.hierarchy.isAncestor (.cls (txt "object")) (.cls (txt "A")) = true ∧
    globals.member? (txt "object") initName = some (.func g) ∧
    globals.member? (txt "A") initName = some (.func f) ∧
    g.ret = .noneType ∧ f.ret = .int := by
  have hrun : (accepted? initReturns).any (fun r =>
      r.1.hierarchy.isAncestor (.cls (txt "object")) (.cls (txt "A")) = true ∧
      r.1.member? (txt "object") initName = some (.func ⟨[.object], .noneType⟩) ∧
      r.1.member? (txt "A") initName = some (.func ⟨[.cls (txt "A")], .int⟩)) = true := by
    decide +kernel
  obtain ⟨⟨globals, p⟩, hr, hprop⟩ := (Option.any_eq_true _ _).1 hrun
  obtain ⟨hanc, hobject, hclass⟩ := of_decide_eq_true hprop
  exact ⟨globals, p, accepts_of_accepted? hr, _, _, hanc, hobject, hclass, rfl, rfl⟩

end ChocoRv
