import ChocoRv.Proofs.Dispatch
import ChocoRv.Proofs.Routines

/-!
# Sites

A site is an expression into whose parts values are delivered: a conditional expression, a list
display, a call or the concatenation of two lists. Every statement of a body and every site in it,
nested ones included, has its code inside the code of the body, and the constants of that code stay.
The only arguments without code would be those of constructors, which have none.
-/

namespace ChocoRv

open Asm Codegen Emit

/-! ### Parts of code -/

namespace Emit

variable {α β : Type}

/-- A part of what `x` emits is emitted by `y`, and what comes behind it loses no constant. -/
def Contains (x : Emit α) (y : Emit Unit) : Prop :=
  ∀ s, All x s fun _ code s' => ∃ before s₁ own s₂ after,
    y s₁ = .ok ((), own, s₂) ∧ code = before ++ own ++ after ∧ s₂.pool.Within s'.pool

namespace Contains

variable {x : Emit α} {f : α → Emit β} {y z : Emit Unit}

theorem refl (y : Emit Unit) : Contains y y :=
  fun s _ code s' h => ⟨[], s, code, s', [], h, by simp, .refl _⟩

theorem trans (h : Contains x y) (h' : Contains y z) : Contains x z := by
  intro s a code s' hx
  obtain ⟨before, s₁, own, s₂, after, hy, rfl, hpool⟩ := h s a code s' hx
  obtain ⟨before', s₃, own', s₄, after', hz, rfl, hpool'⟩ := h' s₁ () own s₂ hy
  exact ⟨before ++ before', s₃, own', s₄, after' ++ after, hz, by simp, hpool'.trans hpool⟩

theorem left [∀ a, Keeps (f a)] (h : Contains x y) : Contains (x >>= f) y := by
  intro s
  rw [all_bind]
  intro a code s₁ hx b more s₂ hf
  obtain ⟨before, s₃, own, s₄, after, hy, rfl, hpool⟩ := h s a code s₁ hx
  exact ⟨before, s₃, own, s₄, after ++ more, hy, by simp, hpool.trans (Keeps.within hf)⟩

theorem right (h : ∀ a, Contains (f a) y) : Contains (x >>= f) y := by
  intro s
  rw [all_bind]
  intro a code s₁ _ b more s₂ hf
  obtain ⟨before, s₃, own, s₄, after, hy, rfl, hpool⟩ := h a s₁ b more s₂ hf
  exact ⟨code ++ before, s₃, own, s₄, after, hy, by simp, hpool⟩

end Contains

end Emit

/-! ### The sites in a body -/

/-- Values are delivered into parts of the expression. -/
def Expr.isSite : Expr → Bool
  | .cond .. | .list .. | .call .. | .methodCall .. => true
  | .binary _ l .add _ => l.type?.any Ty.isListLike
  | _ => false

mutual

/-- The sites in an expression, itself and nested ones included. -/
def Expr.sites : Expr → List Expr
  | .lit _ | .name _ => []
  | .unary _ _ e => e.sites
  | .binary m l op r => [Expr.binary m l op r].filter Expr.isSite ++ (l.sites ++ r.sites)
  | .cond m test yes no => .cond m test yes no :: (test.sites ++ yes.sites ++ no.sites)
  | .list m elems => .list m elems :: Expr.allSites elems
  | .index _ seq i => seq.sites ++ i.sites
  | .member _ object _ => object.sites
  | .call m id args => .call m id args :: Expr.allSites args
  | .methodCall m method object id args =>
    .methodCall m method object id args :: (object.sites ++ Expr.allSites args)

def Expr.allSites : List Expr → List Expr
  | [] => []
  | e :: es => e.sites ++ Expr.allSites es

end

/-- The sites in the expressions of a statement, not of those in its blocks. -/
def Stmt.sites : Stmt → List Expr
  | .expr _ e => e.sites
  | .assign _ targets value => Expr.allSites targets ++ value.sites
  | .ite _ test _ _ => test.sites
  | .loop _ test _ => test.sites
  | .each _ _ iterable _ => iterable.sites
  | .ret _ none => []
  | .ret _ (some e) => e.sites

mutual

theorem Expr.isSite_of_mem_sites : ∀ {e : Expr}, ∀ site ∈ e.sites, site.isSite = true
  | .lit _ | .name _ => by simp [Expr.sites]
  | .unary _ _ e | .member _ e _ => by
    rw [Expr.sites]
    exact e.isSite_of_mem_sites
  | .binary m l op r => by
    simp only [Expr.sites, List.forall_mem_append]
    exact ⟨fun site hsite => (List.mem_filter.1 hsite).2, l.isSite_of_mem_sites,
      r.isSite_of_mem_sites⟩
  | .cond m test yes no => by
    simp only [Expr.sites, List.forall_mem_cons, List.forall_mem_append]
    exact ⟨rfl, ⟨test.isSite_of_mem_sites, yes.isSite_of_mem_sites⟩, no.isSite_of_mem_sites⟩
  | .list m elems | .call m _ elems => by
    simp only [Expr.sites, List.forall_mem_cons]
    exact ⟨rfl, Expr.isSite_of_mem_allSites⟩
  | .index _ seq i => by
    simp only [Expr.sites, List.forall_mem_append]
    exact ⟨seq.isSite_of_mem_sites, i.isSite_of_mem_sites⟩
  | .methodCall m method object id args => by
    simp only [Expr.sites, List.forall_mem_cons, List.forall_mem_append]
    exact ⟨rfl, object.isSite_of_mem_sites, Expr.isSite_of_mem_allSites⟩

theorem Expr.isSite_of_mem_allSites : ∀ {es : List Expr},
    ∀ site ∈ Expr.allSites es, site.isSite = true
  | [] => by simp [Expr.allSites]
  | e :: es => by
    simp only [Expr.allSites, List.forall_mem_append]
    exact ⟨e.isSite_of_mem_sites, Expr.isSite_of_mem_allSites⟩

end

theorem Stmt.isSite_of_mem_sites : ∀ {s : Stmt}, ∀ site ∈ s.sites, site.isSite = true
  | .expr _ e | .ite _ e _ _ | .loop _ e _ | .each _ _ e _ | .ret _ (some e) => e.isSite_of_mem_sites
  | .assign _ targets value => by
    simp only [Stmt.sites, List.forall_mem_append]
    exact ⟨Expr.isSite_of_mem_allSites, value.isSite_of_mem_sites⟩
  | .ret _ none => by simp [Stmt.sites]

mutual

/-- A statement and those in its blocks. -/
def Stmt.nested : Stmt → List Stmt
  | .expr loc e => [.expr loc e]
  | .assign loc targets value => [.assign loc targets value]
  | .ite loc test yes no => .ite loc test yes no :: (Stmt.allNested yes ++ Stmt.allNested no)
  | .loop loc test body => .loop loc test body :: Stmt.allNested body
  | .each loc id iterable body => .each loc id iterable body :: Stmt.allNested body
  | .ret loc value? => [.ret loc value?]

def Stmt.allNested : List Stmt → List Stmt
  | [] => []
  | s :: ss => s.nested ++ Stmt.allNested ss

end

theorem Stmt.mem_nested_self (s : Stmt) : s ∈ s.nested := by
  cases s <;> simp [Stmt.nested]

theorem Stmt.mem_allNested {s : Stmt} {ss : List Stmt} (h : s ∈ ss) : s ∈ Stmt.allNested ss := by
  induction ss with
  | nil => cases h
  | cons s' ss ih =>
    rw [Stmt.allNested, List.mem_append]
    rcases List.mem_cons.1 h with rfl | h
    · exact .inl s.mem_nested_self
    · exact .inr (ih h)

/-! ### Expressions -/

namespace Codegen

variable {c : Context} {y : Emit Unit}

theorem asType_contains {e : Expr} {code : Emit Unit} (h : Contains code y)
    (he : ∀ l, e ≠ .lit l) (target : Option Ty) : Contains (asType e code target) y := by
  unfold asType
  split
  · exact h
  · split
    · exact absurd rfl (he _)
    · exact absurd rfl (he _)
    · exact h.left

variable {l r : Emit Unit} [Keeps r]

theorem operands_contains (h : Contains l y ∨ Contains r y) : Contains (operands l r) y := by
  rcases h with h | h
  · exact h.left
  · exact .right fun _ => .right fun _ => h.left

theorem runtimeCall_contains (routine : String) (h : Contains l y ∨ Contains r y) :
    Contains (runtimeCall routine l r) y := by
  rcases h with h | h
  · exact h.left
  · exact .right fun _ => .right fun _ => h.left

theorem concat_contains (result left right : Option Ty) (h : Contains l y ∨ Contains r y) :
    Contains (concat result left right l r) y := by
  rcases h with h | h
  · exact .left (.left h)
  · exact .right fun _ => .left (.left h)

theorem binary_contains (op : BinOp) (result left right : Option Ty)
    (h : Contains l y ∨ Contains r y) : Contains (binary op result left right l r) y := by
  have hops := operands_contains h
  have hcall := fun routine => runtimeCall_contains routine h
  cases op <;> simp only [binary]
  case and =>
    refine .right fun _ => ?_
    exact h.elim .left fun h => .right fun _ => .right fun _ => h.left
  case or =>
    refine .right fun _ => ?_
    exact h.elim .left fun h => .right fun _ => .right fun _ => h.left
  case add =>
    split_ifs
    · exact hcall _
    · exact hops.left
    · exact concat_contains _ _ _ h
  case eq =>
    split_ifs
    · exact hcall _
    · exact hops.left
  case ne =>
    split_ifs
    · exact hcall _
    · exact hops.left
  all_goals exact hops.left

theorem elementAddress_contains (h : Contains l y ∨ Contains r y) :
    Contains (elementAddress l r) y :=
  .left (operands_contains h)

end Codegen

/-- Where code generation finds a class under the name of a call there are no arguments. -/
def Codegen.Context.BareConstructors (c : Context) (t : Typing.Context) : Prop :=
  ∀ x entry params result layout, ValidName x →
    Typing.Gives (Typing.callee t x) (.func entry params result) →
    Frame.resolveFunc? x c.chain = none → ClassLayout.find? c.layouts x = some layout → params = []

/-- An expression as the tree of a body has it, with its code inside that of `x`. -/
structure Expr.Inside {α : Type} (c : Context) (t : Typing.Context) (x : Emit α) (e : Expr) :
    Prop where
  typed : e.Typed t
  valid : e.Valid
  code : Contains x (e.gen c)

section
variable {c : Context} {t : Typing.Context} {e : Expr} {α β : Type} {x : Emit α}

theorem Expr.Inside.within {x' : Emit β} (h : e.Inside c t x) (hcode : Contains x' (e.gen c)) :
    e.Inside c t x' := ⟨h.typed, h.valid, hcode⟩

theorem Expr.Inside.lift {x' : Emit β} (h : e.Inside c t x)
    (hcode : Contains x (e.gen c) → Contains x' (e.gen c)) : e.Inside c t x' :=
  h.within (hcode h.code)

theorem Expr.Inside.asType {around : Expr} (h : e.Inside c t (around.gen c))
    (he : e ∈ around.sites) (target : Option Ty) :
    e.Inside c t (asType around (around.gen c) target) := by
  refine h.lift fun h => asType_contains h (fun l hl => ?_) target
  rw [hl, Expr.sites] at he
  cases he

end

variable {c : Context} {t : Typing.Context}

mutual

/-- The sites in an expression are typed and have their code in that of the expression. -/
theorem Expr.Typed.inside (hc : c.BareConstructors t) : ∀ {e : Expr}, e.Typed t → e.Valid →
    ∀ site ∈ e.sites, site.Inside c t (e.gen c)
  | .lit _, _, _ => by simp [Expr.sites]
  | .name _, _, _ => by simp [Expr.sites]
  | .unary _ op e, h, hv => by
    simp only [Expr.Typed, Expr.Valid] at h hv
    simp only [Expr.sites, Expr.gen]
    intro site hsite
    refine (h.1.inside hc hv site hsite).lift fun hcode => ?_
    cases op <;> exact hcode.left
  | .binary m l op r, htyped, hvalid => by
    simp only [Expr.sites, List.forall_mem_append]
    refine ⟨fun site hsite => ?_, ?_⟩
    · rw [List.mem_singleton.1 (List.mem_of_mem_filter hsite)]
      exact ⟨htyped, hvalid, .refl _⟩
    · simp only [Expr.Typed, Expr.Valid] at htyped hvalid
      simp only [Expr.gen]
      exact ⟨fun site hsite => (htyped.1.inside hc hvalid.1 site hsite).lift fun h =>
          binary_contains _ _ _ _ (.inl h),
        fun site hsite => (htyped.2.1.inside hc hvalid.2 site hsite).lift fun h =>
          binary_contains _ _ _ _ (.inr h)⟩
  | .cond m test yes no, htyped, hvalid => by
    simp only [Expr.sites, List.forall_mem_cons, List.forall_mem_append]
    refine ⟨⟨htyped, hvalid, .refl _⟩, ⟨fun site hsite => ?_, fun site hsite => ?_⟩,
      fun site hsite => ?_⟩
    all_goals
      simp only [Expr.Typed, Expr.Valid] at htyped hvalid
      simp only [Expr.gen]
    · refine (htyped.1.inside hc hvalid.1 site hsite).lift fun h => ?_
      exact .right fun _ => .right fun _ => h.left
    · refine ((htyped.2.2.1.inside hc hvalid.2.1 site hsite).asType hsite m.type?).lift fun h => ?_
      exact .right fun _ => .right fun _ => .right fun _ => .right fun _ => h.left
    · refine ((htyped.2.2.2.1.inside hc hvalid.2.2 site hsite).asType hsite m.type?).lift
        fun h => ?_
      exact .right fun _ => .right fun _ => .right fun _ => .right fun _ => .right fun _ =>
        .right fun _ => .right fun _ => h.left
  | .list m elems, htyped, hvalid => by
    simp only [Expr.sites, List.forall_mem_cons]
    refine ⟨⟨htyped, hvalid, .refl _⟩, fun site hsite => ?_⟩
    simp only [Expr.Typed, Expr.Valid] at htyped hvalid
    simp only [Expr.gen]
    exact ((Expr.AllTyped.inside hc htyped.1 hvalid site hsite).1 _).lift fun h => h.left
  | .index _ seq i, h, hv => by
    simp only [Expr.Typed, Expr.Valid] at h hv
    simp only [Expr.sites, Expr.gen, List.forall_mem_append]
    have hcode : ∀ site, Contains (seq.gen c) (Expr.gen c site) ∨
        Contains (i.gen c) (Expr.gen c site) → Contains (if seq.type? = some .str then
          runtimeCall "strindex" (seq.gen c) (i.gen c) else do
            elementAddress (seq.gen c) (i.gen c)
            lw .a0 .a0 elementsOffset "list element") (Expr.gen c site) := fun site h => by
      split
      · exact runtimeCall_contains _ h
      · exact .left (elementAddress_contains h)
    exact ⟨fun site hsite => (h.1.inside hc hv.1 site hsite).lift fun h => hcode site (.inl h),
      fun site hsite => (h.2.1.inside hc hv.2 site hsite).lift fun h => hcode site (.inr h)⟩
  | .member _ object _, h, hv => by
    simp only [Expr.Typed, Expr.Valid] at h hv
    simp only [Expr.sites, Expr.gen]
    exact fun site hsite => (h.1.inside hc hv.1 site hsite).lift fun h => h.left
  | .call m id args, htyped, hvalid => by
    simp only [Expr.sites, List.forall_mem_cons]
    refine ⟨⟨htyped, hvalid, .refl _⟩, ?_⟩
    simp only [Expr.Typed, Expr.Valid] at htyped hvalid
    obtain ⟨hargs, entry, params, result, hcallee, hfit, -⟩ := htyped
    have hinside := Expr.AllTyped.inside hc hargs hvalid.2
    intro site hsite
    have hsite' := fun params => (hinside site hsite).2 params
    refine (hsite' params).within ?_
    simp only [Expr.gen]
    split
    · exact .right fun _ => .right fun ty => .left (hsite' ty.params).code
    · rename_i hnone
      split
      · rename_i layout hlayout
        obtain rfl := hc _ _ _ _ _ hvalid.1 hcallee hnone hlayout
        cases hfit
        cases hsite
      · exact .right fun _ => .right fun _ => .right fun ty => .left (hsite' ty.params).code
  | .methodCall m method object id args, htyped, hvalid => by
    simp only [Expr.sites, List.forall_mem_cons]
    refine ⟨⟨htyped, hvalid, .refl _⟩, ?_⟩
    simp only [Expr.Typed, Expr.Valid] at htyped hvalid
    simp only [Expr.gen, List.forall_mem_append]
    refine ⟨fun site hsite => ?_, fun site hsite => ?_⟩
    · have hinside := htyped.1.inside hc hvalid.1 site hsite
      refine hinside.within (.right fun _ => .right fun _ => .right fun _ => .right fun _ => ?_)
      exact .left (hinside.asType hsite _).code
    · have hinside := (Expr.AllTyped.inside hc htyped.2.1 hvalid.2.2 site hsite).2
      refine (hinside []).within (.right fun _ => .right fun _ => .right fun _ => ?_)
      exact .right fun _ => .right fun _ => .right fun _ => .left (hinside _).code

/-- The sites in elements of a list display or in arguments. -/
theorem Expr.AllTyped.inside (hc : c.BareConstructors t) : ∀ {es : List Expr},
    Expr.AllTyped t es → Expr.AllValid es →
    ∀ site ∈ Expr.allSites es, (∀ elem, site.Inside c t (Expr.genElems c elem es)) ∧
      ∀ params, site.Inside c t (Expr.genArgs c params es)
  | [], _, _ => by simp [Expr.allSites]
  | e :: es, h, hv => by
    simp only [Expr.AllTyped, Expr.AllValid] at h hv
    simp only [Expr.allSites, Expr.genElems, List.forall_mem_append]
    refine ⟨fun site hsite => ?_, fun site hsite => ?_⟩
    · have hinside := h.1.inside hc hv.1 site hsite
      refine ⟨fun elem => (hinside.asType hsite elem).lift fun h => h.left, fun params => ?_⟩
      cases params with
      | nil =>
        simp only [Expr.genArgs]
        exact hinside.within fun _ => all_fail _
      | cons ty params =>
        simp only [Expr.genArgs]
        exact (hinside.asType hsite (some ty)).lift fun h => h.left
    · have hinside := Expr.AllTyped.inside hc h.2 hv.2 site hsite
      refine ⟨fun elem => (hinside.1 elem).lift fun h => .right fun _ => .right fun _ => h, ?_⟩
      intro params
      cases params with
      | nil =>
        simp only [Expr.genArgs]
        exact (hinside.2 []).within fun _ => all_fail _
      | cons ty params =>
        simp only [Expr.genArgs]
        exact (hinside.2 params).lift fun h => .right fun _ => .right fun _ => h

end

/-! ### Statements -/

namespace Codegen

theorem store_inside (hc : c.BareConstructors t) {e : Expr} (h : e.Typed t) (hv : e.Valid) :
    ∀ site ∈ e.sites, site.Inside c t (store c e) := by
  intro site hsite
  cases e with
  | member m object id =>
    simp only [Expr.Typed, Expr.Valid] at h hv
    exact (h.1.inside hc hv.1 site hsite).lift fun h => .right fun _ => h.left
  | index m seq i =>
    have hinside := h.inside hc hv site hsite
    simp only [Expr.Typed, Expr.Valid] at h hv
    simp only [Expr.sites, List.mem_append] at hsite
    refine hinside.within (.right fun _ => .left (elementAddress_contains ?_))
    rcases hsite with hsite | hsite
    · exact .inl (h.1.inside hc hv.1 site hsite).code
    · exact .inr (h.2.1.inside hc hv.2 site hsite).code
  | lit | name => cases hsite
  | unary | binary | cond | list | call | methodCall =>
    have hinside := h.inside hc hv site hsite
    exact hinside.within fun _ => all_fail _

theorem storeAll_inside (hc : c.BareConstructors t) (value : Option Ty) : ∀ {es : List Expr},
    (∀ e ∈ es, e.Typed t) → Expr.AllValid es →
      ∀ site ∈ Expr.allSites es, site.Inside c t (storeAll c value es)
  | [], _, _ => by simp [Expr.allSites]
  | e :: es, h, hv => by
    simp only [Expr.AllValid, List.forall_mem_cons] at h hv
    simp only [Expr.allSites, List.forall_mem_append]
    refine ⟨fun site hsite => ?_, fun site hsite => ?_⟩
    · refine (store_inside hc h.1 hv.1 site hsite).lift fun h => ?_
      exact .right fun _ => .right fun _ => h.left
    · refine (storeAll_inside hc value h.2 hv.2 site hsite).lift fun h => ?_
      exact .right fun _ => .right fun _ => .right fun _ => h

theorem assign_inside (hc : c.BareConstructors t) {targets : List Expr} {value : Expr}
    (h : ∀ e ∈ targets, e.Typed t) (hv : Expr.AllValid targets) :
    ∀ site ∈ Expr.allSites targets, site.Inside c t (assign c targets value) := by
  intro site hsite
  unfold assign
  split
  · rename_i target
    simp only [Expr.AllValid, List.forall_mem_singleton, and_true] at h hv
    simp only [Expr.allSites, List.append_nil] at hsite
    exact (store_inside hc h hv site hsite).lift fun h => .right fun _ => .right fun _ => h
  · refine (storeAll_inside hc value.type? h hv site hsite).lift fun h => ?_
    exact .right fun _ => .right fun _ => h.left

theorem assign_contains {targets : List Expr} {value : Expr} {y : Emit Unit}
    (h : Contains (value.gen c) y) : Contains (assign c targets value) y := by
  unfold assign
  split <;> exact h.left

variable {test yes y : Emit Unit} {no? : Option (Emit Unit)} [Keeps yes]

theorem conditional_contains (hno : ∀ no, no? = some no → Keeps no)
    (h : Contains test y ∨ Contains yes y ∨ ∃ no, no? = some no ∧ Contains no y) :
    Contains (conditional test yes no?) y := by
  unfold conditional
  cases no? with
  | none =>
    rcases h with h | h | ⟨no, hno, -⟩
    · exact h.left
    · exact .right fun _ => .right fun _ => .right fun _ => h.left
    · cases hno
  | some no =>
    have := hno no rfl
    rcases h with h | h | ⟨no, ⟨⟩, h⟩
    · exact h.left
    · exact .right fun _ => .right fun _ => .right fun _ => .right fun _ => h.left
    · exact .right fun _ => .right fun _ => .right fun _ => .right fun _ => .right fun _ =>
        .right fun _ => .right fun _ => h.left

variable {body : Emit Unit} [Keeps body]

theorem whileLoop_contains (h : Contains test y ∨ Contains body y) :
    Contains (whileLoop test body) y := by
  refine .right fun _ => .right fun _ => .right fun _ => ?_
  rcases h with h | h
  · exact h.left
  · exact .right fun _ => .right fun _ => h.left

theorem forLoop_contains (c : Context) (slots : Int × Int) (id : Ident) (iterableType : Option Ty)
    {iterable : Emit Unit} (h : Contains iterable y ∨ Contains body y) :
    Contains (forLoop c slots id iterableType iterable body) y := by
  refine .right fun _ => .right fun _ => ?_
  rcases h with h | h
  · exact h.left
  · iterate 15 refine .right fun _ => ?_
    exact h.left

end Codegen

/-- The sites in the expressions of a statement have their code in that of the statement. -/
theorem Stmt.Typed.inside (hc : c.BareConstructors t) {s : Stmt} (k : Nat) (h : s.Typed t)
    (hv : s.Valid) : ∀ site ∈ s.sites, site.Inside c t (s.gen c k) := by
  cases s with
  | expr loc e =>
    simp only [Stmt.Typed, Stmt.Valid] at h hv
    simp only [Stmt.sites, Stmt.gen]
    exact h.inside hc hv
  | assign loc targets value =>
    simp only [Stmt.Typed, Stmt.Valid] at h hv
    obtain ⟨hvalue, ty, -, htargets, -⟩ := h
    simp only [Stmt.sites, Stmt.gen, List.forall_mem_append]
    exact ⟨assign_inside hc (fun e he => (htargets e he).1) hv.1,
      fun site hsite => (hvalue.inside hc hv.2.2 site hsite).lift assign_contains⟩
  | ite loc test yes no =>
    simp only [Stmt.Typed, Stmt.Valid] at h hv
    simp only [Stmt.sites, Stmt.gen]
    intro site hsite
    refine (h.1.inside hc hv.1 site hsite).lift fun h => conditional_contains ?_ (.inl h)
    intro code hcode
    split at hcode <;> cases hcode
    infer_instance
  | loop loc test body =>
    simp only [Stmt.Typed, Stmt.Valid] at h hv
    simp only [Stmt.sites, Stmt.gen]
    exact fun site hsite => (h.1.inside hc hv.1 site hsite).lift fun h => whileLoop_contains (.inl h)
  | each loc id iterable body =>
    simp only [Stmt.Typed, Stmt.Valid] at h hv
    simp only [Stmt.sites, Stmt.gen]
    intro site hsite
    refine (h.1.inside hc hv.2.1 site hsite).lift fun h => .right fun slots => ?_
    exact forLoop_contains c slots id _ (.inl h)
  | ret loc value? =>
    cases value? with
    | none => simp [Stmt.sites]
    | some e =>
      simp only [Stmt.Typed, Stmt.Valid] at h hv
      simp only [Stmt.sites, Stmt.gen]
      exact fun site hsite =>
        ((h.1.inside hc hv site hsite).asType hsite _).lift fun h => h.left

/-- A statement as the tree of a body has it, with its code inside that of `x`. -/
structure Stmt.Inside {α : Type} (c : Context) (t : Typing.Context) (x : Emit α) (s : Stmt) :
    Prop where
  typed : s.Typed t
  valid : s.Valid
  code : ∃ k, Contains x (s.gen c k)

theorem Stmt.Inside.lift {α β : Type} {x : Emit α} {x' : Emit β} {s : Stmt}
    (h : s.Inside c t x) (hcode : ∀ y, Contains x y → Contains x' y) : s.Inside c t x' := by
  obtain ⟨k, hk⟩ := h.code
  exact ⟨h.typed, h.valid, k, hcode _ hk⟩

mutual

/-- The statements in a statement are typed and have their code in that of the statement. -/
theorem Stmt.Typed.nested_inside : ∀ {s : Stmt} (k : Nat), s.Typed t → s.Valid →
    ∀ u ∈ s.nested, u.Inside c t (s.gen c k)
  | .expr loc e, k, h, hv => by
    simp only [Stmt.nested, List.forall_mem_singleton]
    exact ⟨h, hv, k, .refl _⟩
  | .assign loc targets value, k, h, hv => by
    simp only [Stmt.nested, List.forall_mem_singleton]
    exact ⟨h, hv, k, .refl _⟩
  | .ite loc test yes no, k, h, hv => by
    simp only [Stmt.nested, List.forall_mem_cons, List.forall_mem_append]
    refine ⟨⟨h, hv, k, .refl _⟩, fun u hu => ?_, fun u hu => ?_⟩
    all_goals
      simp only [Stmt.Typed, Stmt.Valid] at h hv
      simp only [Stmt.gen]
    · refine (Stmt.AllTyped.nested_inside k h.2.2.1 hv.2.1 u hu).lift fun y h => ?_
      refine conditional_contains ?_ (.inr (.inl h))
      intro code hcode
      split at hcode <;> cases hcode
      infer_instance
    · refine (Stmt.AllTyped.nested_inside (k + Stmt.forCounts yes) h.2.2.2 hv.2.2 u hu).lift
        fun y h => ?_
      have hne : ¬ no.isEmpty = true := fun hempty => by
        rw [List.isEmpty_iff.1 hempty] at hu
        cases hu
      rw [if_neg hne]
      refine conditional_contains ?_ (.inr (.inr ⟨_, rfl, h⟩))
      rintro _ ⟨⟩
      infer_instance
  | .loop loc test body, k, h, hv => by
    simp only [Stmt.nested, List.forall_mem_cons]
    refine ⟨⟨h, hv, k, .refl _⟩, fun u hu => ?_⟩
    simp only [Stmt.Typed, Stmt.Valid] at h hv
    simp only [Stmt.gen]
    exact (Stmt.AllTyped.nested_inside k h.2.2 hv.2 u hu).lift fun y h => whileLoop_contains (.inr h)
  | .each loc id iterable body, k, h, hv => by
    simp only [Stmt.nested, List.forall_mem_cons]
    refine ⟨⟨h, hv, k, .refl _⟩, fun u hu => ?_⟩
    simp only [Stmt.Typed, Stmt.Valid] at h hv
    simp only [Stmt.gen]
    refine (Stmt.AllTyped.nested_inside (k + 1) h.2.1 hv.2.2 u hu).lift fun y h => ?_
    exact .right fun slots => forLoop_contains c slots id _ (.inr h)
  | .ret loc value?, k, h, hv => by
    simp only [Stmt.nested, List.forall_mem_singleton]
    exact ⟨h, hv, k, .refl _⟩

theorem Stmt.AllTyped.nested_inside : ∀ {ss : List Stmt} (k : Nat), Stmt.AllTyped t ss →
    Stmt.AllValid ss → ∀ u ∈ Stmt.allNested ss, u.Inside c t (Stmt.genAll c k ss)
  | [], k, _, _ => by simp [Stmt.allNested]
  | s :: ss, k, h, hv => by
    simp only [Stmt.AllTyped, Stmt.AllValid] at h hv
    simp only [Stmt.allNested, Stmt.genAll, List.forall_mem_append]
    refine ⟨fun u hu => ?_, fun u hu => ?_⟩
    · exact (Stmt.Typed.nested_inside k h.1 hv.1 u hu).lift fun y h => h.left
    · refine (Stmt.AllTyped.nested_inside (k + s.forCount) h.2 hv.2 u hu).lift fun y h => ?_
      exact .right fun _ => h

end

/-- The sites in the statements of a body have their code in that of the body. -/
theorem Stmt.AllTyped.inside (hc : c.BareConstructors t) {ss : List Stmt} (k : Nat)
    (h : Stmt.AllTyped t ss) (hv : Stmt.AllValid ss) {u : Stmt} (hu : u ∈ Stmt.allNested ss) :
    ∀ site ∈ u.sites, site.Inside c t (Stmt.genAll c k ss) := by
  intro site hsite
  obtain ⟨htyped, hvalid, k', hcode⟩ := Stmt.AllTyped.nested_inside (c := c) k h hv u hu
  exact (htyped.inside hc k' hvalid site hsite).lift hcode.trans

end ChocoRv
