import ChocoRv.Proofs.Inheritance

/-!
# Overriding

What the analysis checks of the members of a class against those that the class inherits. A class
is checked when only the classes before it have their members, but the inherited tables are final
by then: superclasses come before, and later classes and functions leave them alone.
-/

namespace ChocoRv

open Reporting

/-- An attribute is new. A method has its class first and takes the place of a method only: of one
with the same signature but for the first parameter, or of a constructor that, like itself, has no
further parameter. -/
def Member.Overrides (cls : Name) (inherited : Name → Option Entry) : Member → Prop
  | .attr d => inherited d.name = none
  | .method f => f.ty.params.head? = some (.cls cls) ∧
      ∀ e, inherited f.name = some e → ∃ g, e = .func g ∧
        (g.sameFrom 1 f.ty = true ∨
          f.name = initName ∧ f.ty.params.length = 1 ∧ g.params.length = 1)

namespace Declarations

variable {cls : Name} {inherited : Env}

theorem checkMethod_yields {id : Ident} {ty : FuncTy} {u : Unit}
    (h : Yields (checkMethod cls inherited id ty) u) : ty.params.head? = some (.cls cls) ∧
      ∀ e, inherited.get? id.name = some e → ∃ g, e = .func g ∧
        (g.sameFrom 1 ty = true ∨
          id.name = initName ∧ ty.params.length = 1 ∧ g.params.length = 1) := by
  unfold checkMethod at h
  split at h
  · simp at h
  · rename_i hhead
    refine ⟨not_not.1 hhead, fun e he => ?_⟩
    rw [he] at h
    cases e with
    | func g =>
      refine ⟨g, rfl, ?_⟩
      dsimp only at h
      split at h
      · rename_i hinit
        exact .inr (by simpa [and_assoc] using hinit)
      · split at h
        · rename_i hsame
          exact .inl hsame
        · simp at h
    | value t => simp at h
    | cls c => simp at h

theorem member_overrides {globals : Bindings Entry} {scope scope' : Scope} {m : Member}
    (hvalid : m.Valid) (h : Yields (member globals cls inherited scope m) scope') :
    m.Overrides cls inherited.get? := by
  unfold member at h
  dsimp only at h
  split at h
  · simp at h
  split at h
  · simp at h
  cases m with
  | attr d =>
    dsimp only at h
    split at h
    · simp at h
    · rename_i hnew
      exact Option.not_isSome_iff_eq_none.1 hnew
  | method f =>
    simp only [yields_bind] at h
    obtain ⟨⟨ty, inner⟩, hf, u, hcheck, -⟩ := h
    obtain ⟨rfl, -⟩ := func_yields hvalid hf
    exact checkMethod_yields hcheck

theorem members_override {globals : Bindings Entry} : ∀ {ms : List Member} {scope scope' : Scope},
    (∀ m ∈ ms, m.Valid) → Yields (members globals cls inherited scope ms) scope' →
      ∀ m ∈ ms, m.Overrides cls inherited.get?
  | [], _, _, _, _ => by simp
  | m :: ms, scope, scope', hvalid, h => by
    obtain ⟨hm, hms⟩ := List.forall_mem_cons.1 hvalid
    simp only [members, yields_bind] at h
    obtain ⟨scope₁, hscope₁, h⟩ := h
    exact List.forall_mem_cons.2 ⟨member_overrides hm hscope₁, members_override hms h⟩

/-- The member tables of a class depend on the classes and on the scopes of its lineage. -/
theorem memberTables_congr {s s' : Scope} {x : Name} (hclasses : s'.hierarchy = s.hierarchy)
    (hchild : ∀ k ∈ s.hierarchy.lineage x, s'.child? k = s.child? k) :
    s'.memberTables x = s.memberTables x := by
  rw [Scope.memberTables, Scope.memberTables, hclasses]
  refine List.filterMap_congr fun k hk => ?_
  rw [hchild k hk]

/-- The classes still to come are not in the lines of the classes that the table binds, so the
members that these inherit do not change any more. -/
theorem classBodies_override : ∀ {cs : List ClassDef} {s s' : Scope} {table : Bindings Entry}
    {n : Nat}, (∀ c ∈ cs, c.Valid) → ((table ++ cs.map ClassDef.binding).map Prod.fst).Nodup →
      (∀ c ∈ cs, s.child? c.name = some ⟨[c.binding], []⟩) → SupersBound table cs →
      (∀ c ∈ cs, s.hierarchy.super? c.name = some (some c.super.name)) →
      s.hierarchy.Lined table n → n + cs.length ≤ s.hierarchy.classes.length →
      Yields (classBodies s cs) s' →
      ∀ c ∈ cs, ∀ m ∈ c.members, m.Overrides c.name (s'.member? c.super.name)
  | [], _, _, _, _, _, _, _, _, _, _, _, _ => by simp
  | c :: cs, s, s', table, n, hvalid, hnd, hchild, hsupers, hsuper?, hlined, hn, h => by
    have hnames : (c :: cs).map ClassDef.name = ((c :: cs).map ClassDef.binding).map Prod.fst := by
      rw [List.map_map]
      rfl
    obtain ⟨-, hcnd, hdisjoint⟩ : (table.map Prod.fst).Nodup ∧ ((c :: cs).map ClassDef.name).Nodup ∧
        ∀ x ∈ table.map Prod.fst, ∀ y ∈ (c :: cs).map ClassDef.name, x ≠ y := by
      rw [List.map_append, ← hnames] at hnd
      exact List.nodup_append.1 hnd
    obtain ⟨hentries, -, hother⟩ := classBodies_yields hvalid hcnd hchild h
    obtain ⟨⟨super, hsuper, -⟩, hsupers⟩ := hsupers
    obtain ⟨hcsuper, hcsuper?⟩ := List.forall_mem_cons.1 hsuper?
    obtain ⟨hcvalid, hcsvalid⟩ := List.forall_mem_cons.1 hvalid
    simp only [classBodies, yields_bind] at h
    obtain ⟨scope, hscope, h⟩ := h
    have hinherited : s'.memberTables c.super.name = s.memberTables c.super.name := by
      obtain ⟨ks, hks, hlen, hall⟩ := hlined _ super (Bindings.mem_of_get? hsuper)
      have hlineage : s.hierarchy.lineage c.super.name = ks := by
        refine hks.lineage_eq (by omega) ?_
        obtain ⟨b, bs, hname, -⟩ := hcvalid.2.1.spelled
        simp [hname]
      refine memberTables_congr (by rw [Scope.hierarchy, Scope.hierarchy, hentries]) ?_
      rw [hlineage]
      exact fun k hk => hother k fun hmem => hdisjoint k (hall k hk) k hmem rfl
    refine List.forall_mem_cons.2 ⟨fun m hm => ?_, ?_⟩
    · have hoverrides := members_override hcvalid.2.2 hscope m hm
      rw [← hinherited] at hoverrides
      exact hoverrides
    · rw [List.map_cons, List.nodup_cons] at hcnd
      refine classBodies_override (s := s.setChild c.name scope) hcsvalid ?_
        (heads_setChild scope hcnd.1 (List.forall_mem_cons.1 hchild).2) hsupers hcsuper?
        (hlined.bind hsuper hcsuper) ?_ h
      · rw [List.append_assoc]
        exact hnd
      · rw [List.length_cons] at hn
        show _ ≤ s.hierarchy.classes.length
        omega

end Declarations

/-- What is no class does not change the hierarchy. -/
theorem Scope.hierarchy_append {s s' : Scope} {t : Bindings Entry}
    (h : s'.entries = s.entries ++ t) (ht : ∀ b ∈ t, b.2.class? = none) :
    s'.hierarchy = s.hierarchy := by
  have hnone : t.filterMap (fun e => e.2.class?.map (e.1, ·.super?)) = [] := by
    rw [List.filterMap_eq_nil_iff]
    intro e he
    rw [ht e he, Option.map_none]
  show Hierarchy.mk (s'.entries.filterMap fun e => e.2.class?.map (e.1, ·.super?)) =
    Hierarchy.mk (s.entries.filterMap fun e => e.2.class?.map (e.1, ·.super?))
  rw [h, List.filterMap_append, hnone, List.append_nil]

/-- Functions add no class. -/
theorem Scope.hierarchy_congr {s s' : Scope} {fs : List FuncDef}
    (h : s'.entries = s.entries ++ fs.map FuncDef.binding) : s'.hierarchy = s.hierarchy :=
  hierarchy_append h (List.forall_mem_map.2 fun _ _ => rfl)

/-- Every member of a class goes with what the class inherits. -/
def Program.Overrides (globals : Scope) (p : Program) : Prop :=
  ∀ c, .cls c ∈ p.decls → ∀ m ∈ c.members, m.Overrides c.name (globals.member? c.super.name)

theorem Program.overrides {p : Program} {globals : Scope} (hvalid : p.Valid)
    (hdeclare : p.declare = ⟨globals, []⟩) : p.Overrides globals := by
  have hp := Program.resolved hvalid hdeclare
  obtain ⟨hnd, -, s₁, s₂, s₃, hclasses, hvars, hbodies, hfuncs⟩ := Program.declare_yields hdeclare
  have hcnd := TopDecl.classes_nodup hnd
  obtain ⟨-, hentries₁, hsupers, hown, -⟩ := Declarations.classes_yields hcnd hclasses
  obtain ⟨hentries₂, hchildren₂⟩ := Declarations.globalVars_yields hvars
  have hchild : ∀ c ∈ p.classes, s₂.child? c.name = some ⟨[c.binding], []⟩ := by
    intro c hc
    rw [Scope.child?, hchildren₂]
    exact hown c hc
  obtain ⟨hentries₃, -, -⟩ := Declarations.classBodies_yields hvalid.classes hcnd hchild hbodies
  obtain ⟨hentries, -, hother⟩ := Declarations.globalFuncs_yields hvalid.funcs
    (TopDecl.funcs_nodup hnd) hfuncs
  have hhierarchy₃ : s₃.hierarchy = s₂.hierarchy := by
    rw [Scope.hierarchy, Scope.hierarchy, hentries₃]
  have hhierarchy : globals.hierarchy = s₂.hierarchy :=
    (Scope.hierarchy_congr hentries).trans hhierarchy₃
  have hnames : ((Scope.builtins.entries ++ p.classes.map ClassDef.binding).map Prod.fst).Nodup := by
    have hall := hp.declared.names_nodup
    rw [hp.declared.entries, Program.table, List.append_assoc, List.map_append] at hall
    exact hall.of_append_left
  intro c hc m hm
  have hover := Declarations.classBodies_override hvalid.classes hnames hchild hsupers
    (fun c hc => hhierarchy ▸ hp.declared.super?_class (Program.Declared.mem_classes.1 hc))
    (hhierarchy ▸ hp.declared.lined_builtins)
    (by rw [← hhierarchy, hp.declared.length_classes]; show 2 + p.classes.length ≤ _; omega)
    hbodies c (Program.Declared.mem_classes.2 hc) m hm
  have htables : globals.memberTables c.super.name = s₃.memberTables c.super.name := by
    refine Declarations.memberTables_congr (hhierarchy.trans hhierarchy₃.symm) fun k hk => ?_
    rw [hhierarchy₃, ← hhierarchy] at hk
    refine hother k fun hmem => ?_
    obtain ⟨f, hf, rfl⟩ := List.mem_map.1 hmem
    have hknows := (hp.line (hp.knows_super hc)).knows_of_mem hk
    have hget : globals.entries.get? f.name = some (.func f.ty) := by
      rw [hp.declared.get?_iff]
      exact List.mem_append_right _ (List.mem_map_of_mem hf)
    rw [Hierarchy.knows, hp.declared.super?, hget] at hknows
    cases hknows
  have hmember : globals.member? c.super.name = s₃.member? c.super.name := by
    funext x
    rw [Scope.member?, Scope.member?, htables]
  rw [hmember]
  exact hover

theorem Accepts.overrides {source : Bytes} {globals : Scope} {p : Program}
    (h : Accepts source globals p) : p.Overrides globals := by
  obtain ⟨hvalid, hdeclare, -⟩ := h.analyzed
  exact Program.overrides hvalid hdeclare

namespace Program.Overrides

variable {globals : Scope} {p : Program} {c : ClassDef}

theorem attr (h : p.Overrides globals) (hc : .cls c ∈ p.decls) {d : VarDef}
    (hd : .attr d ∈ c.members) : globals.member? c.super.name d.name = none :=
  h c hc _ hd

theorem method (h : p.Overrides globals) (hc : .cls c ∈ p.decls) {f : FuncDef}
    (hf : .method f ∈ c.members) {e : Entry}
    (he : globals.member? c.super.name f.name = some e) : ∃ g, e = .func g ∧
      (g.sameFrom 1 f.ty = true ∨
        f.name = initName ∧ f.ty.params.length = 1 ∧ g.params.length = 1) :=
  (h c hc _ hf).2 e he

end Program.Overrides

end ChocoRv
