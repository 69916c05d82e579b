import ChocoRv.Analysis.Declarations
import ChocoRv.Proofs.Lexical
import Mathlib.Data.List.Nodup

/-!
# Declared programs

The scopes of a program whose declarations are in order, spelled out. Nothing is dropped then and
no name is bound twice, so a table is the list of its declarations: those of a function are
`FuncDef.scope`, those of a class `ClassDef.scope`, and `Program.declared` gives the global table.
-/

namespace ChocoRv

/-! ### Tables -/

namespace Bindings

variable {α : Type}

theorem get?_append (s t : Bindings α) (x : Name) : get? (s ++ t) x = (s.get? x).or (t.get? x) :=
  List.lookup_append

theorem get?_cons (y x : Name) (a : α) (t : Bindings α) :
    get? ((y, a) :: t) x = if x = y then some a else t.get? x := by
  by_cases h : x = y
  · simp [get?, h]
  · simp [get?, h, List.lookup_cons, beq_eq_false_iff_ne.2 h]

theorem get?_eq_none_iff {t : Bindings α} {x : Name} : t.get? x = none ↔ x ∉ t.map Prod.fst := by
  induction t with
  | nil => simp [get?]
  | cons b t ih =>
    obtain ⟨y, a⟩ := b
    rw [get?_cons]
    split <;> simp_all

theorem declares_iff {t : Bindings α} {x : Name} : t.declares x = true ↔ x ∈ t.map Prod.fst := by
  rw [declares, Option.isSome_iff_ne_none, ne_eq, get?_eq_none_iff, not_not]

theorem declares_eq_false_iff {t : Bindings α} {x : Name} :
    t.declares x = false ↔ x ∉ t.map Prod.fst := by
  rw [← declares_iff, Bool.not_eq_true]

theorem mem_of_get? {t : Bindings α} {x : Name} {a : α} (h : t.get? x = some a) : (x, a) ∈ t := by
  induction t with
  | nil => simp [get?] at h
  | cons b t ih =>
    obtain ⟨y, c⟩ := b
    rw [get?_cons] at h
    split at h
    · subst_vars
      cases h
      exact List.mem_cons_self
    · exact List.mem_cons_of_mem _ (ih h)

/-- In a table without repetitions a name has the one binding that is listed. -/
theorem get?_eq_some_iff {t : Bindings α} (hnd : (t.map Prod.fst).Nodup) {x : Name} {a : α} :
    t.get? x = some a ↔ (x, a) ∈ t := by
  refine ⟨mem_of_get?, fun h => ?_⟩
  induction t with
  | nil => simp at h
  | cons b t ih =>
    obtain ⟨y, c⟩ := b
    simp only [List.map_cons, List.nodup_cons] at hnd
    rw [get?_cons]
    rcases List.mem_cons.1 h with h | h
    · cases h
      simp
    · have hne : x ≠ y := fun hxy => hnd.1 (hxy ▸ List.mem_map_of_mem h)
      rw [if_neg hne, ih hnd.2 h]

theorem get?_filter_ne (t : Bindings α) (x y : Name) :
    get? (t.filter (·.1 != x)) y = if y = x then none else t.get? y := by
  induction t with
  | nil => simp [get?]
  | cons b t ih =>
    obtain ⟨z, a⟩ := b
    by_cases hz : z = x
    · subst hz
      by_cases hy : y = z <;> simp_all [get?_cons]
    · have hkeep : ((z, a).1 != x) = true := by simpa using hz
      rw [List.filter_cons, if_pos hkeep, get?_cons, get?_cons, ih]
      by_cases hy : y = z
      · simp [hy, hz]
      · simp [hy]

theorem add_of_new {t : Bindings α} {x : Name} (a : α) (h : t.declares x = false) :
    t.add x a = t ++ [(x, a)] := by
  simp [add, put, h]

/-- The value types that a table gives to names, and the classes that it binds, do not change when
a function is bound. -/
theorem value?_eq_some_iff {t : Bindings Entry} {x : Name} {ty : Ty} :
    t.value? x = some ty ↔ t.get? x = some (.value ty) := by
  unfold value?
  cases t.get? x with
  | none => simp
  | some e => cases e <;> simp [Entry.value?]

theorem value?_append_func (t : Bindings Entry) (x : Name) (ty : FuncTy) :
    value? (t ++ [(x, .func ty)]) = value? t := by
  funext y
  simp only [value?, get?_append, get?_cons]
  cases t.get? y with
  | some e => rfl
  | none => by_cases h : y = x <;> simp [h, get?, Entry.value?]

theorem bindsClass_append_func (t : Bindings Entry) (x : Name) (ty : FuncTy) :
    bindsClass (t ++ [(x, .func ty)]) = bindsClass t := by
  funext y
  simp only [bindsClass, get?_append, get?_cons]
  cases t.get? y with
  | some e => rfl
  | none => by_cases h : y = x <;> simp [h, get?, Entry.class?]

theorem bindsClass_append_value (t : Bindings Entry) (x : Name) (ty : Ty) :
    bindsClass (t ++ [(x, .value ty)]) = bindsClass t := by
  funext y
  simp only [bindsClass, get?_append, get?_cons]
  cases t.get? y with
  | some e => rfl
  | none => by_cases h : y = x <;> simp [h, get?, Entry.class?]

end Bindings

/-! ### Computations without a report -/

namespace Reporting

variable {α β : Type}

/-- The computation ends with the value and reports nothing. -/
def Yields (x : Reporting α) (a : α) : Prop := x = ⟨a, []⟩

@[simp] theorem yields_pure {a b : α} : Yields (pure a) b ↔ a = b := by
  simp [Yields, pure, Reporting.pure]

@[simp] theorem yields_bind {x : Reporting α} {f : α → Reporting β} {b : β} :
    Yields (x >>= f) b ↔ ∃ a, Yields x a ∧ Yields (f a) b := by
  obtain ⟨a, ds⟩ := x
  rcases hf : f a with ⟨b', ds'⟩
  simp only [Yields, bind, Reporting.bind, hf, Reporting.mk.injEq, List.append_eq_nil_iff]
  constructor
  · rintro ⟨rfl, rfl, rfl⟩
    exact ⟨a, ⟨rfl, rfl⟩, hf⟩
  · rintro ⟨_, ⟨rfl, rfl⟩, h⟩
    cases hf.symm.trans h
    exact ⟨rfl, rfl, rfl⟩

@[simp] theorem yields_map {x : Reporting α} {f : α → β} {b : β} :
    Yields (f <$> x) b ↔ ∃ a, Yields x a ∧ f a = b := by
  rw [← bind_pure_comp, yields_bind]
  simp only [yields_pure]

@[simp] theorem not_yields_report {loc : Loc} {p : Problem} {u : Unit} :
    ¬ Yields (report loc p) u := by
  simp [Yields, report]

end Reporting

open Reporting

/-! ### The scopes of functions -/

/-- The type that an annotation writes. -/
def TypeExpr.ty : TypeExpr → Ty
  | .cls _ name => .cls name
  | .list _ elem => .list elem.ty

/-- The type that a variable is declared with. -/
def TypedVar.ty (v : TypedVar) : Ty := v.typeExpr.ty

def VarDef.ty (d : VarDef) : Ty := d.var.ty

def TypedVar.binding (v : TypedVar) : Name × Entry := (v.name.name, .value v.ty)

def VarDef.binding (d : VarDef) : Name × Entry := d.var.binding

/-- The signature that a function is declared with. -/
def FuncDef.ty (f : FuncDef) : FuncTy :=
  ⟨f.params.map TypedVar.ty, (f.ret?.map TypeExpr.ty).getD .noneType⟩

def FuncDef.binding (f : FuncDef) : Name × Entry := (f.name, .func f.ty)

/-- The names that a function declares: parameters, variables and functions. -/
def FuncDef.names (f : FuncDef) : List Name :=
  f.params.map (·.name.name) ++ f.decls.map (·.ident.name)

/-- The value types that names have in some table. -/
abbrev Values := Name → Option Ty

/-- What a declaration of a variable binds, given the global variables and those of the function
around. -/
def LocalDecl.binding? (global outer : Values) : LocalDecl → Option (Name × Entry)
  | .var d => some d.binding
  | .global _ id => (global id.name).map fun t => (id.name, .value t)
  | .nonlocal _ id => (outer id.name).map fun t => (id.name, .value t)
  | .func _ => none

/-- The variables of a function and its return type. -/
def FuncDef.values (global outer : Values) (f : FuncDef) : Bindings Entry :=
  f.params.map TypedVar.binding ++ f.decls.filterMap (LocalDecl.binding? global outer) ++
    [(returnEntry, .value f.ty.ret)]

/-- All that a function binds. -/
def FuncDef.table (global outer : Values) (f : FuncDef) : Bindings Entry :=
  f.values global outer ++ (f.decls.filterMap LocalDecl.func?).map FuncDef.binding

mutual

/-- The scope of a function. The functions inside see its variables as those around. -/
def FuncDef.scope (global outer : Values) : FuncDef → Scope
  | .mk loc id ps ret? decls body =>
    let f := FuncDef.mk loc id ps ret? decls body
    ⟨f.table global outer, LocalDecl.scopes global (f.values global outer).value? decls⟩

/-- The scopes of the functions among the declarations of a function. -/
def LocalDecl.scopes (global outer : Values) : List LocalDecl → List (Name × Scope)
  | [] => []
  | .func f :: ds => (f.name, f.scope global outer) :: LocalDecl.scopes global outer ds
  | _ :: ds => LocalDecl.scopes global outer ds

end

/-- What `global` and `nonlocal` declarations need. -/
def LocalDecl.Bound (global outer : Values) : LocalDecl → Prop
  | .global _ id => (global id.name).isSome
  | .nonlocal _ id => (outer id.name).isSome
  | .var _ | .func _ => True

mutual

/-- The names of a function are distinct and hide no class, its `global` and `nonlocal` names
stand for variables, and so on for the functions in it. -/
def FuncDef.Declared (isClass : Name → Bool) (global outer : Values) : FuncDef → Prop
  | .mk loc id ps ret? decls body =>
    let f := FuncDef.mk loc id ps ret? decls body
    f.names.Nodup ∧ (∀ x ∈ f.names, isClass x = false) ∧
      (∀ d ∈ decls, d.Bound global outer) ∧
      LocalDecl.AllDeclared isClass global (f.values global outer).value? decls

def LocalDecl.AllDeclared (isClass : Name → Bool) (global outer : Values) :
    List LocalDecl → Prop
  | [] => True
  | .func f :: ds =>
    f.Declared isClass global outer ∧ LocalDecl.AllDeclared isClass global outer ds
  | _ :: ds => LocalDecl.AllDeclared isClass global outer ds

end

/-! ### Declaring functions -/

namespace Declarations

variable {globals table : Bindings Entry}

theorem keep_yields : ∀ {ids : List Ident} {seen : List Name} {flags : List Bool},
    Yields (keep table seen ids) flags →
      flags = List.replicate ids.length true ∧ (ids.map Ident.name).Nodup ∧
        ∀ id ∈ ids, id.name ∉ seen ∧ table.declares id.name = false
  | [], seen, flags, h => by
    simp only [keep, yields_pure] at h
    subst h
    simp
  | id :: ids, seen, flags, h => by
    unfold keep at h
    split at h
    · simp at h
    · rename_i hnew
      simp only [yields_bind, yields_pure] at h
      obtain ⟨flags, hflags, rfl⟩ := h
      obtain ⟨rfl, hnd, hids⟩ := keep_yields hflags
      obtain ⟨hseen, htable⟩ : id.name ∉ seen ∧ table.declares id.name = false := by
        simpa using hnew
      refine ⟨rfl, ?_, ?_⟩
      · rw [List.map_cons, List.nodup_cons]
        refine ⟨fun hmem => ?_, hnd⟩
        obtain ⟨id', hid', heq⟩ := List.mem_map.1 hmem
        exact (hids id' hid').1 (heq ▸ List.mem_cons_self)
      · refine List.forall_mem_cons.2 ⟨⟨hseen, htable⟩, fun id' hid' => ?_⟩
        exact ⟨fun hmem => (hids id' hid').1 (List.mem_cons_of_mem _ hmem), (hids id' hid').2⟩

theorem kept_replicate {α : Type} (xs : List α) :
    kept xs (List.replicate xs.length true) = xs := by
  induction xs with
  | nil => rfl
  | cons x xs ih =>
    simp only [kept, List.length_cons, List.replicate_succ, List.zip_cons_cons,
      List.filterMap_cons, if_true] at ih ⊢
    rw [ih]

theorem resolve_yields : ∀ {a : TypeExpr} {r : Option Ty},
    Yields (resolve globals a) r → r = some a.ty
  | .cls loc name, r, h => by
    unfold resolve at h
    split at h
    · simp only [yields_pure] at h
      exact h.symm
    · simp at h
  | .list loc elem, r, h => by
    simp only [resolve, yields_bind, yields_pure] at h
    obtain ⟨r', hr', rfl⟩ := h
    rw [resolve_yields hr']
    rfl

theorem isNew_yields {id : Ident} {b : Bool} (h : Yields (isNew table id) b) :
    b = true ∧ table.declares id.name = false := by
  unfold isNew at h
  split at h
  · simp at h
  · rename_i hnew
    exact ⟨by simpa [eq_comm] using h, by simpa using hnew⟩

theorem isNewLocal_yields {id : Ident} {b : Bool} (h : Yields (isNewLocal globals table id) b) :
    b = true ∧ table.declares id.name = false ∧ globals.bindsClass id.name = false := by
  simp only [isNewLocal, yields_bind] at h
  obtain ⟨new, hnew, h⟩ := h
  obtain ⟨rfl, htable⟩ := isNew_yields hnew
  rw [if_pos rfl] at h
  split at h
  · simp at h
  · rename_i hclass
    exact ⟨by simpa [eq_comm] using h, htable, by simpa using hclass⟩

theorem params_yields : ∀ {ps : List TypedVar} {table : Bindings Entry} {types : List Ty}
    {table' : Bindings Entry}, Yields (params globals table ps) (types, table') →
      types = ps.map TypedVar.ty ∧ table' = table ++ ps.map TypedVar.binding ∧
        ((table.map Prod.fst).Nodup → (table'.map Prod.fst).Nodup) ∧
        ∀ p ∈ ps, globals.bindsClass p.name.name = false
  | [], table, types, table', h => by
    simp only [params, yields_pure, Prod.mk.injEq] at h
    obtain ⟨rfl, rfl⟩ := h
    simp
  | p :: ps, table, types, table', h => by
    simp only [params, param, yields_bind] at h
    obtain ⟨⟨t, table₁⟩, ⟨r, hr, hp⟩, ⟨ts, table₂⟩, hps, h⟩ := h
    obtain rfl := resolve_yields hr
    simp only [yields_bind] at hp
    obtain ⟨b, hb, hp⟩ := hp
    obtain ⟨rfl, hnew, hclass⟩ := isNewLocal_yields hb
    simp only [if_true, yields_pure, Prod.mk.injEq] at hp h
    obtain ⟨rfl, rfl⟩ := hp
    obtain ⟨rfl, rfl⟩ := h
    obtain ⟨rfl, rfl, hnd, hall⟩ := params_yields hps
    rw [Bindings.add_of_new _ hnew] at hnd ⊢
    refine ⟨rfl, by simp [TypedVar.binding, TypedVar.ty], fun h => hnd ?_,
      List.forall_mem_cons.2 ⟨hclass, hall⟩⟩
    rw [List.map_append, List.nodup_append_comm]
    simpa using ⟨fun e he => Bindings.declares_eq_false_iff.1 hnew (List.mem_map_of_mem he), h⟩

theorem returnType_yields {ret? : Option TypeExpr} {t : Ty}
    (h : Yields (returnType globals ret?) t) : t = (ret?.map TypeExpr.ty).getD .noneType := by
  cases ret? with
  | none => simpa [returnType, eq_comm] using h
  | some a =>
    simp only [returnType, yields_bind, yields_pure] at h
    obtain ⟨r, hr, rfl⟩ := h
    rw [resolve_yields hr]
    rfl

/-- The value types of the function around, if there is one. -/
def outerValues (outer? : Option (Bindings Entry)) : Values :=
  fun x => outer?.bind (·.value? x)

theorem localVar_yields {d : VarDef} {table' : Bindings Entry}
    (h : Yields (localVar globals table d) table') :
    table' = table ++ [d.binding] ∧ globals.bindsClass d.name = false := by
  simp only [localVar, yields_bind] at h
  obtain ⟨r, hr, h⟩ := h
  obtain rfl := resolve_yields hr
  simp only [yields_bind] at h
  obtain ⟨b, hb, h⟩ := h
  obtain ⟨rfl, hnew, hclass⟩ := isNewLocal_yields hb
  simp only [if_true, yields_pure] at h
  subst h
  rw [VarDef.name, Bindings.add_of_new _ hnew]
  exact ⟨rfl, hclass⟩

theorem globalName_yields {id : Ident} {table' : Bindings Entry}
    (h : Yields (globalName globals table id) table') :
    ∃ t, globals.value? id.name = some t ∧ table' = table ++ [(id.name, .value t)] ∧
      globals.bindsClass id.name = false := by
  simp only [globalName, yields_bind] at h
  obtain ⟨b, hb, h⟩ := h
  obtain ⟨rfl, hnew, hclass⟩ := isNewLocal_yields hb
  rw [if_pos rfl] at h
  split at h
  · next t ht =>
    rw [Bindings.add_of_new _ hnew] at h
    exact ⟨t, ht, (yields_pure.1 h).symm, hclass⟩
  · simp at h

theorem nonlocalName_yields {outer? : Option (Bindings Entry)} {id : Ident}
    {table' : Bindings Entry} (h : Yields (nonlocalName globals outer? table id) table') :
    ∃ t, outerValues outer? id.name = some t ∧ table' = table ++ [(id.name, .value t)] ∧
      globals.bindsClass id.name = false := by
  simp only [nonlocalName, yields_bind] at h
  obtain ⟨b, hb, h⟩ := h
  obtain ⟨rfl, hnew, hclass⟩ := isNewLocal_yields hb
  rw [if_pos rfl] at h
  split at h
  · next t ht =>
    rw [Bindings.add_of_new _ hnew] at h
    exact ⟨t, ht, (yields_pure.1 h).symm, hclass⟩
  · simp at h

theorem locals_yields {outer? : Option (Bindings Entry)} : ∀ {ds : List LocalDecl}
    {table table' : Bindings Entry}, Yields (locals globals outer? table ds) table' →
      table' = table ++ ds.filterMap (LocalDecl.binding? globals.value? (outerValues outer?)) ∧
        ∀ d ∈ ds, d.Bound globals.value? (outerValues outer?) ∧
          (d.func? = none → globals.bindsClass d.ident.name = false)
  | [], table, table', h => by
    simp only [locals, yields_pure] at h
    subst h
    simp
  | .var d :: ds, table, table', h => by
    simp only [locals, yields_bind] at h
    obtain ⟨table₁, hd, hds⟩ := h
    obtain ⟨rfl, hclass⟩ := localVar_yields hd
    obtain ⟨rfl, hall⟩ := locals_yields hds
    refine ⟨?_, List.forall_mem_cons.2 ⟨⟨trivial, fun _ => hclass⟩, hall⟩⟩
    simp [LocalDecl.binding?]
  | .global loc id :: ds, table, table', h => by
    simp only [locals, yields_bind] at h
    obtain ⟨table₁, hd, hds⟩ := h
    obtain ⟨t, ht, rfl, hclass⟩ := globalName_yields hd
    obtain ⟨rfl, hall⟩ := locals_yields hds
    refine ⟨?_, List.forall_mem_cons.2 ⟨⟨?_, fun _ => hclass⟩, hall⟩⟩
    · simp [LocalDecl.binding?, ht]
    · simp [LocalDecl.Bound, ht]
  | .nonlocal loc id :: ds, table, table', h => by
    simp only [locals, yields_bind] at h
    obtain ⟨table₁, hd, hds⟩ := h
    obtain ⟨t, ht, rfl, hclass⟩ := nonlocalName_yields hd
    obtain ⟨rfl, hall⟩ := locals_yields hds
    refine ⟨?_, List.forall_mem_cons.2 ⟨⟨?_, fun _ => hclass⟩, hall⟩⟩
    · simp [LocalDecl.binding?, ht]
    · simp [LocalDecl.Bound, ht]
  | .func f :: ds, table, table', h => by
    simp only [locals, yields_bind, yields_pure] at h
    obtain ⟨_, rfl, hds⟩ := h
    obtain ⟨rfl, hall⟩ := locals_yields hds
    refine ⟨by simp [List.filterMap_cons, LocalDecl.binding?],
      List.forall_mem_cons.2 ⟨⟨trivial, fun h => ?_⟩, hall⟩⟩
    simp [LocalDecl.func?] at h

/-- No child is replaced by one whose name is new. -/
theorem filter_children {scope : Scope} {x : Name}
    (hsub : ∀ c ∈ scope.children, scope.declares c.1 = true) (hnew : scope.declares x = false) :
    scope.children.filter (·.1 != x) = scope.children := by
  rw [List.filter_eq_self]
  intro c hc
  have hne : c.1 ≠ x := by
    rintro rfl
    rw [hsub c hc] at hnew
    cases hnew
  simpa using hne

/-- A declaration of a variable binds its own name. -/
theorem binding_name {global outer : Values} {d : LocalDecl} {b : Name × Entry}
    (h : d.binding? global outer = some b) : b.1 = d.ident.name := by
  cases d with
  | var d => cases h; rfl
  | global loc id | «nonlocal» loc id =>
    obtain ⟨t, -, rfl⟩ := Option.map_eq_some_iff.1 h
    rfl
  | func f => cases h

theorem mem_values_names {global outer : Values} {ps : List TypedVar} {ds : List LocalDecl}
    {x : Name} (h : x ∈ (ps.map TypedVar.binding ++
      ds.filterMap (LocalDecl.binding? global outer)).map Prod.fst) :
    x ∈ ps.map (·.name.name) ++ ds.map (·.ident.name) := by
  simp only [List.map_append, List.mem_append, List.mem_map, List.mem_filterMap] at h ⊢
  rcases h with ⟨_, ⟨v, hv, rfl⟩, rfl⟩ | ⟨b, ⟨d, hd, hb⟩, rfl⟩
  · exact .inl ⟨v, hv, rfl⟩
  · exact .inr ⟨d, hd, (binding_name hb).symm⟩

/-- No parameter or variable has the name of the entry for the return type. -/
theorem return_notDeclared {global outer : Values} {ps : List TypedVar} {ds : List LocalDecl}
    (hps : ∀ v ∈ ps, ValidName v.name.name) (hds : LocalDecl.AllValid ds) :
    Bindings.declares (ps.map TypedVar.binding ++
      ds.filterMap (LocalDecl.binding? global outer)) returnEntry = false := by
  rw [Bindings.declares_eq_false_iff]
  intro hmem
  have hname : ValidName returnEntry := by
    rcases List.mem_append.1 (mem_values_names hmem) with hx | hx
    · obtain ⟨v, hv, hx⟩ := List.mem_map.1 hx
      exact hx ▸ hps v hv
    · obtain ⟨d, hd, hx⟩ := List.mem_map.1 hx
      exact hx ▸ (LocalDecl.allValid_iff.1 hds d hd).ident
  exact hname.ne_return rfl

mutual

theorem func_yields {globals : Bindings Entry} : ∀ {f : FuncDef} {outer? : Option (Bindings Entry)}
    {ty : FuncTy} {scope : Scope}, f.Valid → Yields (func globals outer? f) (ty, scope) →
      ty = f.ty ∧ scope = f.scope globals.value? (outerValues outer?) ∧
        f.Declared globals.bindsClass globals.value? (outerValues outer?)
  | .mk loc id ps ret? decls body, outer?, ty, scope, hvalid, h => by
    simp only [FuncDef.Valid] at hvalid
    obtain ⟨-, hps, hdecls, -⟩ := hvalid
    simp only [func, yields_bind] at h
    obtain ⟨⟨types, table⟩, hparams, ret, hret, flags, hkeep, table', hlocals, scope', hnested,
      _, -, h⟩ := h
    obtain ⟨rfl, rfl, hpnd, hpclass⟩ := params_yields hparams
    obtain rfl := returnType_yields hret
    obtain ⟨rfl, hnd, hnew⟩ := keep_yields hkeep
    rw [List.length_map] at hlocals hnested
    rw [kept_replicate] at hlocals
    obtain ⟨rfl, hbound⟩ := locals_yields hlocals
    set f := FuncDef.mk loc id ps ret? decls body with hf
    rw [List.nil_append, Bindings.add_of_new _ (return_notDeclared hps hdecls)] at hnested
    obtain ⟨hentries, hchildren, hfuncs, hfclass⟩ := nested_yields hdecls (by simp) hnested
    have hscope : scope' = f.scope globals.value? (outerValues outer?) := by
      obtain ⟨entries, children⟩ := scope'
      simp only at hentries hchildren
      rw [hentries, hchildren, hf]
      simp only [FuncDef.scope]
      rfl
    have hresult : Yields (pure (f.ty, scope')) (ty, scope) := by
      split at h
      · simp at h
      · exact h
    cases yields_pure.1 hresult
    refine ⟨rfl, hscope, ?_⟩
    rw [hf, FuncDef.Declared]
    refine ⟨?_, ?_, fun d hd => (hbound d hd).1, hfuncs⟩
    · simp only [FuncDef.names, FuncDef.params, FuncDef.decls]
      refine List.nodup_append.2 ⟨by simpa [TypedVar.binding, Function.comp_def] using hpnd, ?_, ?_⟩
      · simpa [Function.comp_def] using hnd
      · rintro x hx y hy rfl
        obtain ⟨d, hd, rfl⟩ := List.mem_map.1 hy
        refine Bindings.declares_eq_false_iff.1 (hnew d.ident (List.mem_map_of_mem hd)).2 ?_
        simpa [TypedVar.binding] using hx
    · intro x hx
      simp only [FuncDef.names, FuncDef.params, FuncDef.decls, List.mem_append] at hx
      rcases hx with hx | hx
      · obtain ⟨v, hv, rfl⟩ := List.mem_map.1 hx
        exact hpclass v hv
      · obtain ⟨d, hd, rfl⟩ := List.mem_map.1 hx
        cases hfunc : d.func? with
        | none => exact (hbound d hd).2 hfunc
        | some g =>
          obtain rfl : d = .func g := by cases d <;> simp_all [LocalDecl.func?]
          exact hfclass g (List.mem_filterMap.2 ⟨_, hd, rfl⟩)

theorem nested_yields {globals : Bindings Entry} : ∀ {ds : List LocalDecl} {scope scope' : Scope},
    LocalDecl.AllValid ds → (∀ c ∈ scope.children, scope.entries.declares c.1 = true) →
      Yields (nested globals scope ds (List.replicate ds.length true)) scope' →
      scope'.entries = scope.entries ++ (ds.filterMap LocalDecl.func?).map FuncDef.binding ∧
        scope'.children =
          scope.children ++ LocalDecl.scopes globals.value? scope.entries.value? ds ∧
        LocalDecl.AllDeclared globals.bindsClass globals.value? scope.entries.value? ds ∧
        ∀ f ∈ ds.filterMap LocalDecl.func?, globals.bindsClass f.name = false
  | [], scope, scope', _, _, h => by
    simp only [nested, yields_pure] at h
    subst h
    simp [LocalDecl.scopes, LocalDecl.AllDeclared]
  | .func f :: ds, scope, scope', hvalid, hsub, h => by
    simp only [LocalDecl.AllValid, LocalDecl.Valid] at hvalid
    simp only [List.length_cons, List.replicate_succ, nested, yields_bind] at h
    obtain ⟨⟨ty, inner⟩, hf, b, hb, h⟩ := h
    obtain ⟨rfl, rfl, hdeclared⟩ := func_yields hvalid.1 hf
    obtain ⟨rfl, hnew, hclass⟩ := isNewLocal_yields hb
    simp only [if_true] at h
    have hentries : (scope.entries.add f.name (.func f.ty)) = scope.entries ++ [f.binding] :=
      Bindings.add_of_new _ hnew
    have hfilter : scope.children.filter (·.1 != f.name) = scope.children :=
      filter_children hsub hnew
    simp only [Scope.bind, Scope.setChild, hentries, hfilter] at h
    have hsub' : ∀ c ∈ scope.children ++ [(f.name, f.scope globals.value?
        (outerValues (some scope.entries)))],
        Bindings.declares (scope.entries ++ [f.binding]) c.1 = true := by
      intro c hc
      rw [Bindings.declares_iff, List.map_append, List.mem_append]
      rcases List.mem_append.1 hc with hc | hc
      · exact .inl (Bindings.declares_iff.1 (hsub c hc))
      · cases List.mem_singleton.1 hc
        exact .inr (List.mem_singleton_self _)
    obtain ⟨h₁, h₂, h₃, h₄⟩ := nested_yields hvalid.2 hsub' h
    simp only [FuncDef.binding, Bindings.value?_append_func] at h₁ h₂ h₃
    refine ⟨by simp [h₁, LocalDecl.func?, FuncDef.binding], ?_, ?_, ?_⟩
    · simp only [h₂, LocalDecl.scopes, List.append_assoc, List.singleton_append]
      rfl
    · simp only [LocalDecl.AllDeclared]
      exact ⟨hdeclared, h₃⟩
    · rw [List.filterMap_cons]
      exact List.forall_mem_cons.2 ⟨hclass, h₄⟩
  | .var d :: ds, scope, scope', hvalid, hsub, h => by
    simp only [LocalDecl.AllValid] at hvalid
    simp only [List.length_cons, List.replicate_succ, nested] at h
    simpa [List.filterMap_cons, LocalDecl.func?, LocalDecl.scopes, LocalDecl.AllDeclared] using
      nested_yields hvalid.2 hsub h
  | .global loc id :: ds, scope, scope', hvalid, hsub, h => by
    simp only [LocalDecl.AllValid] at hvalid
    simp only [List.length_cons, List.replicate_succ, nested] at h
    simpa [List.filterMap_cons, LocalDecl.func?, LocalDecl.scopes, LocalDecl.AllDeclared] using
      nested_yields hvalid.2 hsub h
  | .nonlocal loc id :: ds, scope, scope', hvalid, hsub, h => by
    simp only [LocalDecl.AllValid] at hvalid
    simp only [List.length_cons, List.replicate_succ, nested] at h
    simpa [List.filterMap_cons, LocalDecl.func?, LocalDecl.scopes, LocalDecl.AllDeclared] using
      nested_yields hvalid.2 hsub h

end

end Declarations

/-! ### Classes and programs -/

namespace Scope

@[simp] theorem entries_bind (s : Scope) (x : Name) (e : Entry) :
    (s.bind x e).entries = s.entries.add x e := rfl

@[simp] theorem child?_bind (s : Scope) (x : Name) (e : Entry) (y : Name) :
    (s.bind x e).child? y = s.child? y := rfl

@[simp] theorem entries_setChild (s : Scope) (x : Name) (c : Scope) :
    (s.setChild x c).entries = s.entries := rfl

theorem child?_setChild (s : Scope) (x : Name) (c : Scope) (y : Name) :
    (s.setChild x c).child? y = if y = x then some c else s.child? y := by
  show Bindings.get? (s.children.filter (·.1 != x) ++ [(x, c)]) y = _
  rw [Bindings.get?_append, Bindings.get?_filter_ne, Bindings.get?_cons]
  by_cases hy : y = x
  · simp [hy]
  · simp [hy, child?, Bindings.get?]

end Scope

def Member.binding : Member → Name × Entry
  | .attr d => d.binding
  | .method f => f.binding

def ClassDef.binding (c : ClassDef) : Name × Entry :=
  (c.name, .cls ⟨c.name, some c.super.name, false⟩)

/-- The table of a method's function around: there is none. -/
def noOuter : Values := fun _ => none

/-- The members of a class, after the class itself, and the scopes of its methods. -/
def ClassDef.scope (global : Values) (c : ClassDef) : Scope :=
  ⟨c.binding :: c.members.map Member.binding,
    (c.members.filterMap Member.method?).map fun f => (f.name, f.scope global noOuter)⟩

/-- The members of a class have distinct names that hide no class, and its methods are in order. -/
structure ClassDef.Declared (isClass : Name → Bool) (global : Values) (c : ClassDef) : Prop where
  nodup : (c.members.map (·.ident.name)).Nodup
  notClass : ∀ m ∈ c.members, isClass m.ident.name = false
  methods : ∀ f, Member.method f ∈ c.members → f.Declared isClass global noOuter

namespace Declarations

theorem superClass?_yields {globals : Scope} {id : Ident} {r : Option ClassTy}
    (h : Yields (superClass? globals id) r) :
    ∃ c, r = some c ∧ globals.get? id.name = some (.cls c) ∧ c.special = false := by
  unfold superClass? at h
  split at h
  · simp at h
  · rename_i c hc
    split at h
    · simp at h
    · rename_i hspecial
      simp only [yields_pure] at h
      exact ⟨c, h.symm, hc, by simpa using hspecial⟩
  · simp at h

/-- Each superclass is bound, and not special, by the table before its class. -/
def SupersBound : Bindings Entry → List ClassDef → Prop
  | _, [] => True
  | table, c :: cs =>
    (∃ super, table.get? c.super.name = some (.cls super) ∧ super.special = false) ∧
      SupersBound (table ++ [c.binding]) cs

theorem classes_yields : ∀ {cs : List ClassDef} {globals globals' : Scope} {rest : List ClassDef},
    (cs.map ClassDef.name).Nodup → Yields (classes globals cs) (globals', rest) →
      rest = cs ∧ globals'.entries = globals.entries ++ cs.map ClassDef.binding ∧
        SupersBound globals.entries cs ∧
        (∀ c ∈ cs, globals'.child? c.name = some ⟨[c.binding], []⟩) ∧
        ∀ x, x ∉ cs.map ClassDef.name → globals'.child? x = globals.child? x
  | [], globals, globals', rest, _, h => by
    simp only [classes, yields_pure, Prod.mk.injEq] at h
    obtain ⟨rfl, rfl⟩ := h
    simp [SupersBound]
  | c :: cs, globals, globals', rest, hnd, h => by
    obtain ⟨hc, hcs⟩ := List.nodup_cons.1 hnd
    simp only [classes, newClass?, yields_bind] at h
    obtain ⟨scope?, ⟨super?, hsuper, hnew⟩, h⟩ := h
    obtain ⟨super, rfl, hget, hspecial⟩ := superClass?_yields hsuper
    simp only [yields_bind] at hnew
    obtain ⟨b, hb, hnew⟩ := hnew
    obtain ⟨rfl, hnot⟩ := isNew_yields hb
    rw [if_pos rfl] at hnew
    cases yields_pure.1 hnew
    simp only [yields_bind, yields_pure] at h
    obtain ⟨⟨globals₁, rest₁⟩, hrest, h⟩ := h
    cases h
    obtain ⟨rfl, hentries, hsupers, hown, hother⟩ := classes_yields hcs hrest
    simp only [Scope.entries_setChild, Scope.entries_bind, ClassDef.name,
      Bindings.add_of_new _ hnot] at hentries hsupers
    refine ⟨rfl, by simp [hentries, ClassDef.binding, ClassDef.name], ⟨⟨super, hget, hspecial⟩,
      hsupers⟩, List.forall_mem_cons.2 ⟨?_, hown⟩, fun x hx => ?_⟩
    · rw [hother _ hc, Scope.child?_setChild, if_pos rfl]
      rfl
    · simp only [List.map_cons, List.mem_cons, not_or] at hx
      rw [hother x hx.2, Scope.child?_setChild, if_neg hx.1, Scope.child?_bind]

theorem globalVars_yields : ∀ {ds : List VarDef} {globals globals' : Scope},
    Yields (globalVars globals ds) globals' →
      globals'.entries = globals.entries ++ ds.map VarDef.binding ∧
        globals'.children = globals.children
  | [], globals, globals', h => by
    simp only [globalVars, yields_pure] at h
    subst h
    simp
  | d :: ds, globals, globals', h => by
    simp only [globalVars, yields_bind] at h
    obtain ⟨r, hr, h⟩ := h
    obtain rfl := resolve_yields hr
    simp only [yields_bind] at h
    obtain ⟨b, hb, h⟩ := h
    obtain ⟨rfl, hnew⟩ := isNew_yields hb
    simp only [if_true] at h
    obtain ⟨hentries, hchildren⟩ := globalVars_yields h
    refine ⟨?_, hchildren⟩
    rw [hentries, Scope.entries_bind, VarDef.name, Bindings.add_of_new _ hnew]
    simp [VarDef.binding, TypedVar.binding, TypedVar.ty]

theorem member_yields {globals : Bindings Entry} {cls : Name} {inherited : Env}
    {scope scope' : Scope} {m : Member} (hvalid : m.Valid)
    (h : Yields (member globals cls inherited scope m) scope') :
    globals.bindsClass m.ident.name = false ∧ scope.declares m.ident.name = false ∧
      scope'.entries = scope.entries ++ [m.binding] ∧
      match m with
      | .attr _ => scope'.children = scope.children
      | .method f => f.Declared globals.bindsClass globals.value? noOuter ∧
          scope'.children = scope.children.filter (·.1 != f.name) ++
            [(f.name, f.scope globals.value? noOuter)] := by
  unfold member at h
  dsimp only at h
  split at h
  · simp at h
  rename_i hclass
  split at h
  · simp at h
  rename_i hnew
  have hnew' : scope.entries.declares m.ident.name = false := by simpa [Scope.declares] using hnew
  refine ⟨by simpa using hclass, by simpa using hnew, ?_⟩
  cases m with
  | attr d =>
    dsimp only at h
    split at h
    · simp at h
    simp only [yields_bind] at h
    obtain ⟨r, hr, h⟩ := h
    obtain rfl := resolve_yields hr
    simp only [yields_pure] at h
    subst h
    exact ⟨Bindings.add_of_new _ hnew', rfl⟩
  | method f =>
    simp only [yields_bind, yields_pure] at h
    obtain ⟨⟨ty, inner⟩, hf, _, -, rfl⟩ := h
    obtain ⟨rfl, rfl, hdeclared⟩ := func_yields hvalid hf
    exact ⟨Bindings.add_of_new _ hnew', hdeclared, rfl⟩

theorem Member.binding_name (m : Member) : m.binding.1 = m.ident.name := by
  cases m <;> rfl

theorem members_yields {globals : Bindings Entry} {cls : Name} {inherited : Env} :
    ∀ {ms : List Member} {scope scope' : Scope}, (∀ m ∈ ms, m.Valid) →
      (∀ c ∈ scope.children, scope.declares c.1 = true) →
      Yields (members globals cls inherited scope ms) scope' →
        scope'.entries = scope.entries ++ ms.map Member.binding ∧
        scope'.children = scope.children ++ (ms.filterMap Member.method?).map
          (fun f => (f.name, f.scope globals.value? noOuter)) ∧
        ((scope.entries.map Prod.fst).Nodup → (scope'.entries.map Prod.fst).Nodup) ∧
        (∀ m ∈ ms, globals.bindsClass m.ident.name = false) ∧
        ∀ f, .method f ∈ ms → f.Declared globals.bindsClass globals.value? noOuter
  | [], scope, scope', _, _, h => by
    simp only [members, yields_pure] at h
    subst h
    simp
  | m :: ms, scope, scope', hvalid, hsub, h => by
    obtain ⟨hm, hms⟩ := List.forall_mem_cons.1 hvalid
    simp only [members, yields_bind] at h
    obtain ⟨scope₁, hscope₁, h⟩ := h
    obtain ⟨hclass, hnew, hentries, hrest⟩ := member_yields hm hscope₁
    have hsub₁ : ∀ c ∈ scope₁.children, scope₁.declares c.1 = true := by
      intro c hc
      have hmem : c ∈ scope.children ∨ c.1 = m.ident.name := by
        cases m with
        | attr d => exact .inl (hrest ▸ hc)
        | method f =>
          rw [hrest.2, List.mem_append, List.mem_singleton] at hc
          exact hc.imp (fun h => (List.mem_filter.1 h).1) fun h => by rw [h]; rfl
      rw [Scope.declares, hentries, Bindings.declares_iff, List.map_append, List.mem_append]
      refine hmem.imp (fun h => Bindings.declares_iff.1 (hsub c h)) fun h => ?_
      simp [h, Member.binding_name]
    obtain ⟨h₁, h₂, h₃, h₄, h₅⟩ := members_yields hms hsub₁ h
    refine ⟨by simp [h₁, hentries], ?_, fun hnd => h₃ ?_, List.forall_mem_cons.2 ⟨hclass, h₄⟩, ?_⟩
    · cases m with
      | attr d => rw [h₂, hrest]; rfl
      | method f =>
        rw [h₂, hrest.2, filter_children (x := f.name) hsub hnew, List.append_assoc]
        rfl
    · rw [hentries, List.map_append, List.nodup_append_comm]
      simp only [List.map_cons, List.map_nil, List.singleton_append, List.nodup_cons,
        Member.binding_name]
      exact ⟨Bindings.declares_eq_false_iff.1 hnew, hnd⟩
    · intro f hf
      rcases List.mem_cons.1 hf with rfl | hf'
      · exact hrest.1
      · exact h₅ f hf'

/-- The classes whose members are still to be bound have only themselves in their scopes. -/
theorem heads_setChild {cs : List ClassDef} {s : Scope} {x : Name} (inner : Scope)
    (hx : x ∉ cs.map ClassDef.name) (h : ∀ c ∈ cs, s.child? c.name = some ⟨[c.binding], []⟩) :
    ∀ c ∈ cs, (s.setChild x inner).child? c.name = some ⟨[c.binding], []⟩ := by
  intro c hc
  have hne : c.name ≠ x := fun heq => hx (heq ▸ List.mem_map_of_mem hc)
  rw [Scope.child?_setChild, if_neg hne]
  exact h c hc

theorem classBodies_yields : ∀ {cs : List ClassDef} {globals globals' : Scope},
    (∀ c ∈ cs, c.Valid) → (cs.map ClassDef.name).Nodup →
      (∀ c ∈ cs, globals.child? c.name = some ⟨[c.binding], []⟩) →
      Yields (classBodies globals cs) globals' →
        globals'.entries = globals.entries ∧
        (∀ c ∈ cs, globals'.child? c.name = some (c.scope globals.entries.value?) ∧
          c.Declared globals.entries.bindsClass globals.entries.value?) ∧
        ∀ x, x ∉ cs.map ClassDef.name → globals'.child? x = globals.child? x
  | [], globals, globals', _, _, _, h => by
    simp only [classBodies, yields_pure] at h
    subst h
    simp
  | c :: cs, globals, globals', hvalid, hnd, hchild, h => by
    obtain ⟨hc, hcs⟩ := List.nodup_cons.1 hnd
    obtain ⟨hv, hvs⟩ := List.forall_mem_cons.1 hvalid
    obtain ⟨hown, howns⟩ := List.forall_mem_cons.1 hchild
    simp only [classBodies, yields_bind, hown, Option.getD_some] at h
    obtain ⟨scope, hscope, h⟩ := h
    obtain ⟨h₁, h₂, h₃, h₄, h₅⟩ := members_yields hv.2.2 (by simp) hscope
    have hscope' : scope = c.scope globals.entries.value? := by
      obtain ⟨entries, children⟩ := scope
      simp only at h₁ h₂
      rw [h₁, h₂]
      rfl
    obtain ⟨hentries, hall, hother⟩ := classBodies_yields hvs hcs (heads_setChild scope hc howns) h
    refine ⟨hentries, List.forall_mem_cons.2 ⟨⟨?_, ?_, h₄, h₅⟩, hall⟩, fun x hx => ?_⟩
    · rw [hother _ hc, Scope.child?_setChild, if_pos rfl, hscope']
    · have hnd' := h₃ (by simp)
      rw [h₁, List.singleton_append, List.map_cons, List.nodup_cons, List.map_map] at hnd'
      simpa [Function.comp_def, Member.binding_name] using hnd'.2
    · simp only [List.map_cons, List.mem_cons, not_or] at hx
      rw [hother x hx.2, Scope.child?_setChild, if_neg hx.1]

theorem globalFuncs_yields : ∀ {fs : List FuncDef} {globals globals' : Scope},
    (∀ f ∈ fs, f.Valid) → (fs.map FuncDef.name).Nodup →
      Yields (globalFuncs globals fs) globals' →
        globals'.entries = globals.entries ++ fs.map FuncDef.binding ∧
        (∀ f ∈ fs, globals'.child? f.name = some (f.scope globals.entries.value? noOuter) ∧
          f.Declared globals.entries.bindsClass globals.entries.value? noOuter) ∧
        ∀ x, x ∉ fs.map FuncDef.name → globals'.child? x = globals.child? x
  | [], globals, globals', _, _, h => by
    simp only [globalFuncs, yields_pure] at h
    subst h
    simp
  | f :: fs, globals, globals', hvalid, hnd, h => by
    obtain ⟨hf, hfs⟩ := List.nodup_cons.1 hnd
    obtain ⟨hv, hvs⟩ := List.forall_mem_cons.1 hvalid
    simp only [globalFuncs, yields_bind] at h
    obtain ⟨⟨ty, inner⟩, hfunc, b, hb, h⟩ := h
    obtain ⟨rfl, rfl, hdeclared⟩ := func_yields hv hfunc
    obtain ⟨rfl, hnew⟩ := isNew_yields hb
    simp only [if_true] at h
    have hentries : globals.entries.add f.name (.func f.ty) = globals.entries ++ [f.binding] :=
      Bindings.add_of_new _ hnew
    obtain ⟨h₁, h₂, h₃⟩ := globalFuncs_yields hvs hfs h
    simp only [Scope.entries_setChild, Scope.entries_bind, hentries, FuncDef.binding,
      Bindings.value?_append_func, Bindings.bindsClass_append_func] at h₁ h₂
    refine ⟨by simp [h₁, FuncDef.binding], List.forall_mem_cons.2 ⟨⟨?_, hdeclared⟩, h₂⟩,
      fun x hx => ?_⟩
    · rw [h₃ _ hf, Scope.child?_setChild, if_pos rfl]
      rfl
    · simp only [List.map_cons, List.mem_cons, not_or] at hx
      rw [h₃ x hx.2, Scope.child?_setChild, if_neg hx.1, Scope.child?_bind]

end Declarations

/-- The table of the top level: what is built in, then classes, variables and functions. -/
def Program.table (p : Program) : Bindings Entry :=
  Scope.builtins.entries ++ (p.decls.filterMap TopDecl.class?).map ClassDef.binding ++
    (p.decls.filterMap TopDecl.var?).map VarDef.binding ++
    (p.decls.filterMap TopDecl.func?).map FuncDef.binding

/-- The declarations of the program are in order and `globals` is its scope. -/
structure Program.Declared (globals : Scope) (p : Program) : Prop where
  entries : globals.entries = p.table
  nodup : (p.decls.map (·.ident.name)).Nodup
  fresh : ∀ d ∈ p.decls, Scope.builtins.declares d.ident.name = false
  supers : Declarations.SupersBound Scope.builtins.entries (p.decls.filterMap TopDecl.class?)
  func : ∀ f, .func f ∈ p.decls →
    globals.child? f.name = some (f.scope globals.entries.value? noOuter) ∧
      f.Declared globals.entries.bindsClass globals.entries.value? noOuter
  cls : ∀ c, .cls c ∈ p.decls →
    globals.child? c.name = some (c.scope globals.entries.value?) ∧
      c.Declared globals.entries.bindsClass globals.entries.value?
  builtin : ∀ x, x ∉ p.decls.map (·.ident.name) → globals.child? x = Scope.builtins.child? x

namespace Declarations

theorem bindings_append_map_func (t : Bindings Entry) (fs : List FuncDef) :
    (t ++ fs.map FuncDef.binding).value? = t.value? ∧
      (t ++ fs.map FuncDef.binding).bindsClass = t.bindsClass := by
  induction fs generalizing t with
  | nil => simp
  | cons f fs ih =>
    have h := ih (t ++ [f.binding])
    simp only [FuncDef.binding, Bindings.value?_append_func, Bindings.bindsClass_append_func,
      List.append_assoc, List.singleton_append] at h
    exact h

/-- Names picked from a list of distinct names are distinct. -/
theorem nodup_filterMap_name {δ β : Type} (pick : δ → Option β) (name : β → Name) {key : δ → Name}
    (hname : ∀ d b, pick d = some b → name b = key d) :
    ∀ {ds : List δ}, (ds.map key).Nodup → ((ds.filterMap pick).map name).Nodup
  | [], _ => by simp
  | d :: ds, hnd => by
    obtain ⟨hd, hds⟩ := List.nodup_cons.1 hnd
    rw [List.filterMap_cons]
    split
    · exact nodup_filterMap_name pick name hname hds
    · rename_i b hb
      refine List.nodup_cons.2 ⟨fun hmem => hd ?_, nodup_filterMap_name pick name hname hds⟩
      obtain ⟨b', hb', heq⟩ := List.mem_map.1 hmem
      obtain ⟨d', hd', hpick⟩ := List.mem_filterMap.1 hb'
      exact List.mem_map.2 ⟨d', hd', (hname d' b' hpick).symm.trans (heq.trans (hname d b hb))⟩

end Declarations

theorem TopDecl.class?_eq_some {d : TopDecl} {c : ClassDef} : d.class? = some c ↔ d = .cls c := by
  cases d <;> simp [TopDecl.class?]

theorem TopDecl.var?_eq_some {d : TopDecl} {v : VarDef} : d.var? = some v ↔ d = .var v := by
  cases d <;> simp [TopDecl.var?]

theorem TopDecl.func?_eq_some {d : TopDecl} {f : FuncDef} : d.func? = some f ↔ d = .func f := by
  cases d <;> simp [TopDecl.func?]

theorem TopDecl.classes_nodup {ds : List TopDecl} (hnd : (ds.map (·.ident.name)).Nodup) :
    ((ds.filterMap TopDecl.class?).map ClassDef.name).Nodup :=
  Declarations.nodup_filterMap_name TopDecl.class? ClassDef.name
    (fun d c h => by cases TopDecl.class?_eq_some.1 h; rfl) hnd

theorem TopDecl.funcs_nodup {ds : List TopDecl} (hnd : (ds.map (·.ident.name)).Nodup) :
    ((ds.filterMap TopDecl.func?).map FuncDef.name).Nodup :=
  Declarations.nodup_filterMap_name TopDecl.func? FuncDef.name
    (fun d f h => by cases TopDecl.func?_eq_some.1 h; rfl) hnd

/-- Without a report no declaration is dropped, and the passes run over all of them. -/
theorem Program.declare_yields {p : Program} {globals : Scope} (h : p.declare = ⟨globals, []⟩) :
    (p.decls.map (·.ident.name)).Nodup ∧
      (∀ d ∈ p.decls, Scope.builtins.declares d.ident.name = false) ∧
      ∃ s₁ s₂ s₃, Yields (Declarations.classes .builtins (p.decls.filterMap TopDecl.class?))
          (s₁, p.decls.filterMap TopDecl.class?) ∧
        Yields (Declarations.globalVars s₁ (p.decls.filterMap TopDecl.var?)) s₂ ∧
        Yields (Declarations.classBodies s₂ (p.decls.filterMap TopDecl.class?)) s₃ ∧
        Yields (Declarations.globalFuncs s₃ (p.decls.filterMap TopDecl.func?)) globals := by
  have h' : Yields p.declare globals := h
  simp only [Program.declare, yields_bind] at h'
  obtain ⟨flags, hkeep, ⟨s₁, cs⟩, hclasses, s₂, hvars, s₃, hbodies, hfuncs⟩ := h'
  obtain ⟨rfl, hnd, hfresh⟩ := Declarations.keep_yields hkeep
  rw [List.length_map] at hclasses hvars hfuncs
  rw [Declarations.kept_replicate] at hclasses hvars hfuncs
  rw [List.map_map] at hnd
  obtain ⟨rfl, -⟩ := Declarations.classes_yields (TopDecl.classes_nodup hnd) hclasses
  exact ⟨hnd, fun d hd => (hfresh d.ident (List.mem_map_of_mem hd)).2, s₁, s₂, s₃, hclasses, hvars,
    hbodies, hfuncs⟩

theorem Program.Valid.classes {p : Program} (hvalid : p.Valid) :
    ∀ c ∈ p.decls.filterMap TopDecl.class?, c.Valid := by
  intro c hc
  obtain ⟨d, hd, hdc⟩ := List.mem_filterMap.1 hc
  cases TopDecl.class?_eq_some.1 hdc
  exact hvalid.1 _ hd

theorem Program.Valid.funcs {p : Program} (hvalid : p.Valid) :
    ∀ f ∈ p.decls.filterMap TopDecl.func?, f.Valid := by
  intro f hf
  obtain ⟨d, hd, hdf⟩ := List.mem_filterMap.1 hf
  cases TopDecl.func?_eq_some.1 hdf
  exact hvalid.1 _ hd

/-- The scope of a program without a report is the one that its declarations spell out. -/
theorem Program.declared {p : Program} {globals : Scope} (hvalid : p.Valid)
    (h : p.declare = ⟨globals, []⟩) : p.Declared globals := by
  obtain ⟨hnd, hfresh, s₁, s₂, s₃, hclasses, hvars, hbodies, hfuncs⟩ := Program.declare_yields h
  have hinj : ∀ {d d' : TopDecl}, d ∈ p.decls → d' ∈ p.decls → d.ident.name = d'.ident.name →
      d = d' := fun hd hd' => List.inj_on_of_nodup_map hnd hd hd'
  have hcnd := TopDecl.classes_nodup hnd
  have hfnd := TopDecl.funcs_nodup hnd
  obtain ⟨-, hentries₁, hsupers, hown, hother₁⟩ := Declarations.classes_yields hcnd hclasses
  obtain ⟨hentries₂, hchildren₂⟩ := Declarations.globalVars_yields hvars
  have hchild₂ : ∀ x, s₂.child? x = s₁.child? x := fun x => by
    simp only [Scope.child?, hchildren₂]
  obtain ⟨hentries₃, hcls, hother₃⟩ := Declarations.classBodies_yields hvalid.classes hcnd
    (fun c hc => (hchild₂ _).trans (hown c hc)) hbodies
  obtain ⟨hentries, hfunc, hother⟩ := Declarations.globalFuncs_yields hvalid.funcs hfnd hfuncs
  obtain ⟨hvalue, hclass⟩ := Declarations.bindings_append_map_func s₃.entries
    (p.decls.filterMap TopDecl.func?)
  rw [← hentries] at hvalue hclass
  refine ⟨?_, hnd, ?_, hsupers, fun f hf => ?_, fun c hc => ?_, fun x hx => ?_⟩
  · rw [hentries, hentries₃, hentries₂, hentries₁]
    rfl
  · exact hfresh
  · rw [hvalue, hclass]
    exact hfunc f (List.mem_filterMap.2 ⟨_, hf, rfl⟩)
  · have hnot : c.name ∉ (p.decls.filterMap TopDecl.func?).map FuncDef.name := by
      intro hmem
      obtain ⟨f, hf, heq⟩ := List.mem_map.1 hmem
      obtain ⟨d, hd, hdf⟩ := List.mem_filterMap.1 hf
      cases TopDecl.func?_eq_some.1 hdf
      cases hinj hd hc heq
    rw [hother _ hnot, hvalue, hclass, hentries₃]
    exact hcls c (List.mem_filterMap.2 ⟨_, hc, rfl⟩)
  · have hnot : ∀ {β : Type} (pick : TopDecl → Option β) (name : β → Name),
        (∀ d b, pick d = some b → name b = d.ident.name) →
        x ∉ (p.decls.filterMap pick).map name := by
      intro β pick name hname hmem
      obtain ⟨b, hb, rfl⟩ := List.mem_map.1 hmem
      obtain ⟨d, hd, hdb⟩ := List.mem_filterMap.1 hb
      exact hx (List.mem_map.2 ⟨d, hd, (hname d b hdb).symm⟩)
    rw [hother x (hnot _ _ fun d f h => by cases TopDecl.func?_eq_some.1 h; rfl),
      hother₃ x (hnot _ _ fun d c h => by cases TopDecl.class?_eq_some.1 h; rfl), hchild₂,
      hother₁ x (hnot _ _ fun d c h => by cases TopDecl.class?_eq_some.1 h; rfl)]

/-! ### The table of the top level -/

/-- Classes, variables and functions together are all declarations. -/
theorem TopDecl.names_perm (ds : List TopDecl) :
    ((ds.filterMap TopDecl.class?).map ClassDef.name ++ (ds.filterMap TopDecl.var?).map VarDef.name ++
      (ds.filterMap TopDecl.func?).map FuncDef.name).Perm (ds.map (·.ident.name)) := by
  induction ds with
  | nil => exact .refl _
  | cons d ds ih =>
    cases d with
    | var v =>
      refine .trans ?_ (ih.cons v.name)
      simp only [List.filterMap_cons, TopDecl.class?, TopDecl.var?, TopDecl.func?, List.map_cons,
        List.append_assoc, List.cons_append]
      exact List.perm_middle
    | func f =>
      refine .trans ?_ (ih.cons f.name)
      simp only [List.filterMap_cons, TopDecl.class?, TopDecl.var?, TopDecl.func?, List.map_cons]
      exact List.perm_middle
    | cls c => exact ih.cons c.name

namespace Program.Declared

variable {globals : Scope} {p : Program}

/-- No name is bound twice at the top level. -/
theorem names_nodup (h : p.Declared globals) : (globals.entries.map Prod.fst).Nodup := by
  have hbuiltin : (Scope.builtins.entries.map Prod.fst).Nodup := by decide
  have hnames : p.table.map Prod.fst = Scope.builtins.entries.map Prod.fst ++
      ((p.decls.filterMap TopDecl.class?).map ClassDef.name ++
        (p.decls.filterMap TopDecl.var?).map VarDef.name ++
        (p.decls.filterMap TopDecl.func?).map FuncDef.name) := by
    simp only [Program.table, List.map_append, List.map_map, List.append_assoc]
    rfl
  rw [h.entries, hnames, List.nodup_append]
  refine ⟨hbuiltin, (TopDecl.names_perm p.decls).nodup_iff.2 h.nodup, fun x hx y hy heq => ?_⟩
  obtain ⟨d, hd, rfl⟩ := List.mem_map.1 ((TopDecl.names_perm p.decls).mem_iff.1 hy)
  have hfresh := Bindings.declares_eq_false_iff.1 (h.fresh d hd)
  exact hfresh (heq ▸ hx)

theorem get?_iff (h : p.Declared globals) {x : Name} {e : Entry} :
    globals.entries.get? x = some e ↔ (x, e) ∈ p.table := by
  rw [Bindings.get?_eq_some_iff h.names_nodup, h.entries]

/-- The values of the top level are its variables. -/
theorem value?_iff (h : p.Declared globals) {x : Name} {t : Ty} :
    globals.entries.value? x = some t ↔ ∃ d, .var d ∈ p.decls ∧ d.name = x ∧ d.ty = t := by
  have hbuiltin : ∀ b ∈ Scope.builtins.entries, b.2.value? = none := by decide
  rw [Bindings.value?_eq_some_iff, h.get?_iff]
  simp only [Program.table, List.mem_append, List.mem_map, List.mem_filterMap,
    TopDecl.var?_eq_some, exists_eq_right]
  constructor
  · rintro (((hb | ⟨c, -, hc⟩) | ⟨d, hd, heq⟩) | ⟨f, -, hf⟩)
    · exact absurd (hbuiltin _ hb) (by simp [Entry.value?])
    · simp [ClassDef.binding] at hc
    · cases heq
      exact ⟨d, hd, rfl, rfl⟩
    · simp [FuncDef.binding] at hf
  · rintro ⟨d, hd, rfl, rfl⟩
    exact .inl (.inr ⟨d, hd, rfl⟩)

end Program.Declared

end ChocoRv
