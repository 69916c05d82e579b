import ChocoRv.Proofs.WellDeclared
import Mathlib.Data.List.Perm.Basic

/-!
# Reordered programs

`Program.Reordered`: the declarations of a program, of its classes and of its functions stand in
another order, at any depth, but the classes of the program do not change places among each other.
What a list of declarations says apart from its order is what no function inside it tells
(`LocalDecl.Permuted.map_perm`), and what the functions inside say, again up to order
(`LocalDecl.Permuted.exists_of_mem`).
-/

namespace ChocoRv

/-! ### The relation -/

/-- Declarations of a function in another order, those of the functions among them too. -/
inductive LocalDecl.Permuted : List LocalDecl → List LocalDecl → Prop
  | perm {ds ds' : List LocalDecl} (h : ds.Perm ds') : Permuted ds ds'
  | inside {loc : Loc} {id : Ident} {ps : List TypedVar} {ret? : Option TypeExpr}
      {decls decls' before after : List LocalDecl} {body : List Stmt} (h : Permuted decls decls') :
      Permuted (before ++ .func (.mk loc id ps ret? decls body) :: after)
        (before ++ .func (.mk loc id ps ret? decls' body) :: after)
  | trans {ds ds' ds'' : List LocalDecl} (h : Permuted ds ds') (h' : Permuted ds' ds'') :
      Permuted ds ds''

inductive FuncDef.Reordered : FuncDef → FuncDef → Prop
  | mk {loc : Loc} {id : Ident} {ps : List TypedVar} {ret? : Option TypeExpr}
      {decls decls' : List LocalDecl} {body : List Stmt} (h : LocalDecl.Permuted decls decls') :
      Reordered (.mk loc id ps ret? decls body) (.mk loc id ps ret? decls' body)

inductive LocalDecl.Reordered : LocalDecl → LocalDecl → Prop
  | refl (d : LocalDecl) : Reordered d d
  | func {f f' : FuncDef} (h : f.Reordered f') : Reordered (.func f) (.func f')

inductive Member.Reordered : Member → Member → Prop
  | attr (d : VarDef) : Reordered (.attr d) (.attr d)
  | method {f f' : FuncDef} (h : f.Reordered f') : Reordered (.method f) (.method f')

/-- The lists have the same elements up to their order and to the relation. -/
def Rearranged {α : Type} (R : α → α → Prop) (xs ys : List α) : Prop :=
  ∃ mixed, xs.Perm mixed ∧ List.Forall₂ R mixed ys

inductive ClassDef.Reordered : ClassDef → ClassDef → Prop
  | mk {loc : Loc} {id super : Ident} {ms ms' : List Member}
      (h : Rearranged Member.Reordered ms ms') : Reordered ⟨loc, id, super, ms⟩ ⟨loc, id, super, ms'⟩

inductive TopDecl.Reordered : TopDecl → TopDecl → Prop
  | var (d : VarDef) : Reordered (.var d) (.var d)
  | func {f f' : FuncDef} (h : f.Reordered f') : Reordered (.func f) (.func f')
  | cls {c c' : ClassDef} (h : c.Reordered c') : Reordered (.cls c) (.cls c')

structure Program.Reordered (p p' : Program) : Prop where
  decls : Rearranged TopDecl.Reordered p.decls p'.decls
  /-- The classes keep their relative order. -/
  classes : p'.classes.map ClassDef.name = p.classes.map ClassDef.name
  body : p'.body = p.body

/-! ### Lists -/

namespace Rearranged

variable {α β : Type} {R : α → α → Prop} {xs ys : List α}

theorem symm (h : Rearranged R xs ys) (hR : ∀ x y, R x y → R y x) : Rearranged R ys xs := by
  obtain ⟨mixed, hperm, hall⟩ := h
  have hback : Relation.Comp (List.Forall₂ R) List.Perm ys xs :=
    ⟨mixed, hall.flip.imp fun x y h => hR y x h, hperm.symm⟩
  rw [List.forall₂_comp_perm_eq_perm_comp_forall₂] at hback
  exact hback

theorem exists_of_mem (h : Rearranged R xs ys) {y : α} (hy : y ∈ ys) : ∃ x ∈ xs, R x y := by
  obtain ⟨mixed, hperm, hall⟩ := h
  obtain ⟨x, hx, hR⟩ : ∃ x ∈ mixed, R x y := by
    clear hperm
    induction hall with
    | nil => simp at hy
    | cons h _ ih =>
      rcases List.mem_cons.1 hy with rfl | hy
      · exact ⟨_, List.mem_cons_self, h⟩
      · obtain ⟨x, hx, hR⟩ := ih hy
        exact ⟨x, List.mem_cons_of_mem _ hx, hR⟩
  exact ⟨x, hperm.mem_iff.2 hx, hR⟩

theorem map_perm (h : Rearranged R xs ys) {φ : α → β} (hφ : ∀ x y, R x y → φ y = φ x) :
    (xs.map φ).Perm (ys.map φ) := by
  obtain ⟨mixed, hperm, hall⟩ := h
  rw [map_eq_map_of_forall₂ (hall.imp hφ)]
  exact hperm.map φ

theorem filterMap_perm (h : Rearranged R xs ys) {φ : α → Option β}
    (hφ : ∀ x y, R x y → φ y = φ x) : (xs.filterMap φ).Perm (ys.filterMap φ) := by
  have hmap := (h.map_perm hφ).filterMap id
  rwa [List.filterMap_map, List.filterMap_map] at hmap

end Rearranged

namespace LocalDecl.Permuted

variable {ds ds' : List LocalDecl} {β : Type}

theorem refl (ds : List LocalDecl) : Permuted ds ds := .perm (.refl ds)

theorem symm (h : Permuted ds ds') : Permuted ds' ds := by
  induction h with
  | perm h => exact .perm h.symm
  | inside _ ih => exact .inside ih
  | trans _ _ ih ih' => exact ih'.trans ih

/-- What does not depend on the declarations inside a function stays the same up to order. -/
theorem map_perm (h : Permuted ds ds') {φ : LocalDecl → β}
    (hφ : ∀ f f' : FuncDef, f.Reordered f' → φ (.func f') = φ (.func f)) :
    (ds.map φ).Perm (ds'.map φ) := by
  induction h with
  | perm h => exact h.map φ
  | inside h =>
    rw [List.map_append, List.map_append, List.map_cons, List.map_cons, hφ _ _ (.mk h)]
  | trans _ _ ih ih' => exact ih.trans ih'

theorem filterMap_perm (h : Permuted ds ds') {φ : LocalDecl → Option β}
    (hφ : ∀ f f' : FuncDef, f.Reordered f' → φ (.func f') = φ (.func f)) :
    (ds.filterMap φ).Perm (ds'.filterMap φ) := by
  have hmap := (h.map_perm hφ).filterMap id
  rwa [List.filterMap_map, List.filterMap_map] at hmap

end LocalDecl.Permuted

/-! ### Functions -/

namespace FuncDef.Reordered

variable {f f' f'' : FuncDef}

theorem refl (f : FuncDef) : f.Reordered f := by
  cases f
  exact .mk (.refl _)

theorem symm (h : f.Reordered f') : f'.Reordered f := by
  obtain ⟨h⟩ := h
  exact .mk h.symm

theorem trans (h : f.Reordered f') (h' : f'.Reordered f'') : f.Reordered f'' := by
  obtain ⟨h⟩ := h
  obtain ⟨h'⟩ := h'
  exact .mk (h.trans h')

theorem decls (h : f.Reordered f') : LocalDecl.Permuted f.decls f'.decls := by
  obtain ⟨h⟩ := h
  exact h

theorem ident (h : f.Reordered f') : f'.ident = f.ident := by
  obtain ⟨h⟩ := h
  rfl

theorem params (h : f.Reordered f') : f'.params = f.params := by
  obtain ⟨h⟩ := h
  rfl

theorem ret? (h : f.Reordered f') : f'.ret? = f.ret? := by
  obtain ⟨h⟩ := h
  rfl

theorem body (h : f.Reordered f') : f'.body = f.body := by
  obtain ⟨h⟩ := h
  rfl

theorem name (h : f.Reordered f') : f'.name = f.name := by rw [FuncDef.name, h.ident, FuncDef.name]

theorem ty (h : f.Reordered f') : f'.ty = f.ty := by
  rw [FuncDef.ty, h.params, h.ret?, FuncDef.ty]

theorem binding (h : f.Reordered f') : f'.binding = f.binding := by
  rw [FuncDef.binding, h.name, h.ty, FuncDef.binding]

theorem names_perm (h : f.Reordered f') : f.names.Perm f'.names := by
  rw [FuncDef.names, FuncDef.names, h.params]
  exact (h.decls.map_perm fun f f' h => by rw [LocalDecl.ident, h.ident, LocalDecl.ident]).append_left _

theorem annotations_perm (h : f.Reordered f') : f.annotations.Perm f'.annotations := by
  rw [FuncDef.annotations, FuncDef.annotations, h.params, h.ret?]
  exact ((h.decls.filterMap_perm fun f f' h => rfl).map _).append_left _

end FuncDef.Reordered

namespace LocalDecl

theorem Reordered.trans {d d' d'' : LocalDecl} (h : d.Reordered d') (h' : d'.Reordered d'') :
    d.Reordered d'' := by
  cases h with
  | refl => exact h'
  | func h =>
    cases h' with
    | refl => exact .func h
    | func h' => exact .func (h.trans h')

/-- Every declaration comes from one of the other list. -/
theorem Permuted.exists_of_mem {ds ds' : List LocalDecl} (h : Permuted ds ds') {d' : LocalDecl}
    (hd : d' ∈ ds') : ∃ d ∈ ds, d.Reordered d' := by
  induction h generalizing d' with
  | perm h => exact ⟨d', h.mem_iff.2 hd, .refl d'⟩
  | inside h =>
    simp only [List.mem_append, List.mem_cons] at hd ⊢
    rcases hd with hd | rfl | hd
    · exact ⟨d', .inl hd, .refl d'⟩
    · exact ⟨_, .inr (.inl rfl), .func (.mk h)⟩
    · exact ⟨d', .inr (.inr hd), .refl d'⟩
  | trans _ _ ih ih' =>
    obtain ⟨d, hd, hreordered⟩ := ih' hd
    obtain ⟨d₀, hd₀, hreordered₀⟩ := ih hd
    exact ⟨d₀, hd₀, hreordered₀.trans hreordered⟩

theorem Permuted.exists_func {ds ds' : List LocalDecl} (h : Permuted ds ds') {g' : FuncDef}
    (hg : .func g' ∈ ds') : ∃ g, .func g ∈ ds ∧ g.Reordered g' := by
  obtain ⟨d, hd, hreordered⟩ := h.exists_of_mem hg
  cases hreordered with
  | refl => exact ⟨g', hd, .refl g'⟩
  | func h => exact ⟨_, hd, h⟩

end LocalDecl

/-! ### Classes and programs -/

namespace Member.Reordered

variable {m m' : Member}

theorem symm (h : m.Reordered m') : m'.Reordered m := by
  cases h with
  | attr d => exact .attr d
  | method h => exact .method h.symm

theorem ident (h : m.Reordered m') : m'.ident = m.ident := by
  cases h with
  | attr d => rfl
  | method h => exact h.ident

theorem binding (h : m.Reordered m') : m'.binding = m.binding := by
  cases h with
  | attr d => rfl
  | method h => exact h.binding

end Member.Reordered

namespace ClassDef.Reordered

variable {c c' : ClassDef}

theorem symm (h : c.Reordered c') : c'.Reordered c := by
  obtain ⟨h⟩ := h
  exact .mk (h.symm fun _ _ => Member.Reordered.symm)

theorem members (h : c.Reordered c') : Rearranged Member.Reordered c.members c'.members := by
  obtain ⟨h⟩ := h
  exact h

theorem ident (h : c.Reordered c') : c'.ident = c.ident := by
  obtain ⟨h⟩ := h
  rfl

theorem super (h : c.Reordered c') : c'.super = c.super := by
  obtain ⟨h⟩ := h
  rfl

theorem name (h : c.Reordered c') : c'.name = c.name := by
  rw [ClassDef.name, h.ident, ClassDef.name]

theorem binding (h : c.Reordered c') : c'.binding = c.binding := by
  rw [ClassDef.binding, h.name, h.super, ClassDef.binding]

end ClassDef.Reordered

namespace TopDecl.Reordered

variable {d d' : TopDecl}

theorem symm (h : d.Reordered d') : d'.Reordered d := by
  cases h with
  | var d => exact .var d
  | func h => exact .func h.symm
  | cls h => exact .cls h.symm

theorem ident (h : d.Reordered d') : d'.ident = d.ident := by
  cases h with
  | var d => rfl
  | func h => exact h.ident
  | cls h => exact h.ident

end TopDecl.Reordered

namespace Program.Reordered

variable {p p' : Program}

theorem symm (h : p.Reordered p') : p'.Reordered p where
  decls := h.decls.symm fun _ _ => TopDecl.Reordered.symm
  classes := h.classes.symm
  body := h.body.symm

theorem names_perm (h : p.Reordered p') :
    (p.decls.map (·.ident.name)).Perm (p'.decls.map (·.ident.name)) :=
  h.decls.map_perm fun _ _ h => by rw [h.ident]

theorem vars_perm (h : p.Reordered p') :
    (p.decls.filterMap TopDecl.var?).Perm (p'.decls.filterMap TopDecl.var?) :=
  h.decls.filterMap_perm fun _ _ h => by cases h <;> rfl

theorem funcs_perm (h : p.Reordered p') :
    ((p.decls.filterMap TopDecl.func?).map FuncDef.binding).Perm
      ((p'.decls.filterMap TopDecl.func?).map FuncDef.binding) := by
  rw [List.map_filterMap, List.map_filterMap]
  refine h.decls.filterMap_perm fun _ _ h => ?_
  cases h with
  | func h => exact congrArg some h.binding
  | var | cls => rfl

theorem exists_func (h : p.Reordered p') {f' : FuncDef} (hf : .func f' ∈ p'.decls) :
    ∃ f, .func f ∈ p.decls ∧ f.Reordered f' := by
  obtain ⟨d, hd, hreordered⟩ := h.decls.exists_of_mem hf
  cases hreordered with
  | func h => exact ⟨_, hd, h⟩

theorem exists_class (h : p.Reordered p') {c' : ClassDef} (hc : .cls c' ∈ p'.decls) :
    ∃ c, .cls c ∈ p.decls ∧ c.Reordered c' := by
  obtain ⟨d, hd, hreordered⟩ := h.decls.exists_of_mem hc
  cases hreordered with
  | cls h => exact ⟨_, hd, h⟩

/-- As the names of classes are distinct, equal names in a row make equal classes in a row. -/
theorem forall₂_classes (h : p.Reordered p') (hnd : (p.classes.map ClassDef.name).Nodup) :
    List.Forall₂ ClassDef.Reordered p.classes p'.classes := by
  have hnames : List.Forall₂ (fun c c' => ClassDef.name c = ClassDef.name c') p.classes
      p'.classes := by
    refine List.forall₂_map_left_iff.1 (List.forall₂_map_right_iff.1 ?_)
    rw [List.forall₂_eq_eq_eq]
    exact h.classes.symm
  refine List.forall₂_iff_zip.2 ⟨hnames.length_eq, fun {c c'} hmem => ?_⟩
  have hname : c.name = c'.name := List.forall₂_zip hnames hmem
  obtain ⟨hc, hc'⟩ := List.of_mem_zip hmem
  obtain ⟨b, hb, hreordered⟩ := h.exists_class (Program.Declared.mem_classes.1 hc')
  have hbc : b.name = c.name := hreordered.name.symm.trans hname.symm
  rwa [List.inj_on_of_nodup_map hnd (Program.Declared.mem_classes.2 hb) hc hbc] at hreordered

end Program.Reordered

/-! ### Names -/

theorem LocalDecl.Permuted.valid {ds ds' : List LocalDecl} (h : Permuted ds ds') :
    LocalDecl.AllValid ds → LocalDecl.AllValid ds' := by
  induction h with
  | perm h =>
    rw [LocalDecl.allValid_iff, LocalDecl.allValid_iff]
    exact fun hvalid d hd => hvalid d (h.mem_iff.2 hd)
  | inside _ ih =>
    simp only [LocalDecl.allValid_iff, List.forall_mem_append, List.forall_mem_cons,
      LocalDecl.Valid, FuncDef.Valid] at ih ⊢
    rintro ⟨hbefore, ⟨hid, hps, hdecls, hbody⟩, hafter⟩
    exact ⟨hbefore, ⟨hid, hps, ih hdecls, hbody⟩, hafter⟩
  | trans _ _ ih ih' => exact fun hvalid => ih' (ih hvalid)

theorem FuncDef.Reordered.valid {f f' : FuncDef} (h : f.Reordered f') (hvalid : f.Valid) :
    f'.Valid := by
  obtain ⟨h⟩ := h
  simp only [FuncDef.Valid] at hvalid ⊢
  exact ⟨hvalid.1, hvalid.2.1, h.valid hvalid.2.2.1, hvalid.2.2.2⟩

theorem Member.Reordered.valid {m m' : Member} (h : m.Reordered m') (hvalid : m.Valid) :
    m'.Valid := by
  cases h with
  | attr d => exact hvalid
  | method h => exact h.valid hvalid

theorem ClassDef.Reordered.valid {c c' : ClassDef} (h : c.Reordered c') (hvalid : c.Valid) :
    c'.Valid := by
  rw [ClassDef.Valid, h.name, h.super]
  refine ⟨hvalid.1, hvalid.2.1, fun m' hm' => ?_⟩
  obtain ⟨m, hm, hreordered⟩ := h.members.exists_of_mem hm'
  exact hreordered.valid (hvalid.2.2 m hm)

theorem TopDecl.Reordered.valid {d d' : TopDecl} (h : d.Reordered d') (hvalid : d.Valid) :
    d'.Valid := by
  cases h with
  | var d => exact hvalid
  | func h => exact h.valid hvalid
  | cls h => exact h.valid hvalid

theorem Program.Reordered.valid {p p' : Program} (h : p.Reordered p') (hvalid : p.Valid) :
    p'.Valid := by
  refine ⟨fun d' hd' => ?_, h.body ▸ hvalid.2⟩
  obtain ⟨d, hd, hreordered⟩ := h.decls.exists_of_mem hd'
  exact hreordered.valid (hvalid.1 d hd)

end ChocoRv
