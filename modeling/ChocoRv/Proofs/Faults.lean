import ChocoRv.Proofs.Linking

/-!
# Faults of the code generator

Whatever is emitted, the pool of constants only grows, and a computation has no faults but those of
its parts. `Emit.Confined` states both and passes through the steps of a computation by instances.
A `for` statement without words in the frame is the one fault that depends on the number of the
statement: it does not happen where the frame leaves words for all of them.
-/

namespace ChocoRv

open Asm Codegen

namespace Emit

variable {α β γ : Type}

/-- The computation loses no constant and has no faults but those in `F`. -/
class Confined (F : CodegenFault → Prop) (x : Emit α) : Prop where
  keeps : ∀ s, All x s fun _ _ s' => s.pool.Within s'.pool
  faults : ∀ s e, x s = .error e → F e

/-- All faults are in `F` but for that of a `for` statement without words. -/
class Ordinary (F : CodegenFault → Prop) : Prop where
  holds : ∀ e, e ≠ .noForSlots → F e

instance : Ordinary fun _ => True := ⟨fun _ _ => trivial⟩

instance : Ordinary fun e => e ≠ .noForSlots := ⟨fun _ h => h⟩

variable {F : CodegenFault → Prop}

instance (a : α) : Confined F (pure a : Emit α) :=
  ⟨fun _ => (all_pure a).2 (.refl _), nofun⟩

instance {x : Emit α} {f : α → Emit β} [hx : Confined F x] [hf : ∀ a, Confined F (f a)] :
    Confined F (x >>= f) where
  keeps s := all_bind.2 fun a _ s' h _ _ _ h' =>
    (hx.keeps s _ _ _ h).trans ((hf a).keeps s' _ _ _ h')
  faults s e h := by
    rw [bind_apply] at h
    split at h
    · rename_i hr
      cases h
      exact hx.faults s e hr
    · rename_i a _ s' _
      split at h
      · rename_i hr
        cases h
        exact (hf a).faults s' e hr
      · cases h

/-- What comes behind is the same whatever the result. Without this instance the search looks at it
twice in each step of a sequence. -/
instance (priority := high) {x : Emit α} {y : Emit β} [Confined F x] [hy : Confined F y] :
    Confined F (x >>= fun _ => y) :=
  have := fun _ : α => hy
  inferInstanceAs (Confined F (x >>= _))

instance {p : Prop} [Decidable p] {x y : Emit α} [Confined F x] [Confined F y] :
    Confined F (if p then x else y) := by
  split <;> infer_instance

instance (code : List Item) : Confined F (items code) :=
  ⟨fun _ => (all_items code).2 (.refl _), nofun⟩

instance (stem : String) : Confined F (fresh stem) :=
  ⟨fun _ => (all_fresh stem).2 (.refl _), nofun⟩

instance (n : Int) : Confined F (intConstant n) :=
  ⟨fun s => (all_intConstant n).2 (s.pool.within_int n), nofun⟩

instance (v : Bytes) : Confined F (strConstant v) :=
  ⟨fun s => (all_strConstant v).2 (s.pool.within_str v), nofun⟩

theorem confined_fail {e : CodegenFault} (he : F e) : Confined F (fail e : Emit α) :=
  ⟨fun _ => all_fail e, by rintro _ _ ⟨⟩; exact he⟩

theorem confined_need {a? : Option α} {e : CodegenFault} (h : a? = none → F e) :
    Confined F (need a? e) := by
  cases a? with
  | none => exact confined_fail (h rfl)
  | some a => exact inferInstanceAs (Confined F (pure a))

/-- What follows runs only on what is there. -/
theorem confined_needThen {a? : Option α} {e : CodegenFault} {f : α → Emit β}
    (h : a? = none → F e) (hf : ∀ a, a? = some a → Confined F (f a)) :
    Confined F (need a? e >>= f) := by
  cases a? with
  | none =>
    have hbind : (need none e : Emit α) >>= f = (fail e : Emit β) := rfl
    rw [hbind]
    exact confined_fail (h rfl)
  | some a =>
    have hbind : need (some a) e >>= f = f a := pure_bind a f
    rw [hbind]
    exact hf a rfl

theorem confined_ofExcept {r : Except CodegenFault α} (h : ∀ e, r = .error e → F e) :
    Confined F (ofExcept r) := by
  cases r with
  | error e => exact confined_fail (h e rfl)
  | ok a => exact inferInstanceAs (Confined F (pure a))

instance (i : Instr) (c : String) : Confined F (instr i c) := inferInstanceAs (Confined F (items _))

instance (i : Instr) (c : String) (x : Name) : Confined F (instrOf i c x) :=
  inferInstanceAs (Confined F (items _))

instance (l : Label) : Confined F (label l) := inferInstanceAs (Confined F (items _))

section
variable (rd rs rs₁ rs₂ : Reg) (imm : Int) (c : String) (l : Label)

instance : Confined F (add rd rs₁ rs₂ c) := inferInstanceAs (Confined F (instr _ _))
instance : Confined F (addi rd rs imm c) := inferInstanceAs (Confined F (instr _ _))
instance : Confined F (slli rd rs imm) := inferInstanceAs (Confined F (instr _ _))
instance : Confined F (mv rd rs c) := inferInstanceAs (Confined F (instr _ _))
instance : Confined F (li rd imm c) := inferInstanceAs (Confined F (instr _ _))
instance : Confined F (la rd l c) := inferInstanceAs (Confined F (instr _ _))
instance : Confined F (lw rd rs imm c) := inferInstanceAs (Confined F (instr _ _))
instance : Confined F (sw rs rs₁ imm c) := inferInstanceAs (Confined F (instr _ _))
instance (k : Cond) : Confined F (branch k rs₁ rs₂ l c) := inferInstanceAs (Confined F (instr _ _))
instance : Confined F (beqz rs l c) := inferInstanceAs (Confined F (instr _ _))
instance : Confined F (j l) := inferInstanceAs (Confined F (instr _ _))
instance : Confined F (jal l c) := inferInstanceAs (Confined F (instr _ _))
instance : Confined F (push rs c) :=
  inferInstanceAs (Confined F (addi _ _ _ >>= fun _ => sw _ _ _ _))
instance : Confined F (pop rd) := inferInstanceAs (Confined F (lw _ _ _ >>= fun _ => addi _ _ _))
instance (n : Nat) : Confined F (popDiscard n) := inferInstanceAs (Confined F (addi _ _ _))

end

theorem confined_forM {f : γ → Emit Unit} : ∀ {xs : List γ}, (∀ x ∈ xs, Confined F (f x)) →
    Confined F (xs.forM f)
  | [], _ => inferInstanceAs (Confined F (pure ()))
  | x :: xs, h => by
    have := h x List.mem_cons_self
    have := confined_forM fun y hy => h y (List.mem_cons_of_mem x hy)
    exact inferInstanceAs (Confined F (f x >>= fun _ => xs.forM f))

instance {f : γ → Emit Unit} [∀ x, Confined F (f x)] (xs : List γ) : Confined F (xs.forM f) :=
  confined_forM fun _ _ => inferInstance

end Emit

open Emit

variable (F : CodegenFault → Prop) [Ordinary F]

namespace Codegen

variable {α : Type} (c : Context)

/-! ### Faults of the parts -/

instance (a? : Option α) : Confined F (need a? .untyped) :=
  confined_need fun _ => Ordinary.holds _ nofun

instance (a? : Option α) (x : Name) : Confined F (need a? (.unknownFunction x)) :=
  confined_need fun _ => Ordinary.holds _ nofun

instance : Confined F (fail .untyped : Emit α) := confined_fail (Ordinary.holds _ nofun)

instance : Confined F (fail .badTarget : Emit α) := confined_fail (Ordinary.holds _ nofun)

instance (t? : Option Ty) : Confined F (ofExcept (c.layoutOf t?)) := by
  refine confined_ofExcept fun e he => Ordinary.holds e ?_
  unfold Context.layoutOf at he
  split at he
  · split at he <;> cases he
    exact nofun
  · cases he
    exact nofun
  · cases he
    exact nofun

instance (l : ClassLayout) (x : Name) : Confined F (ofExcept (l.attrOffset x)) := by
  refine confined_ofExcept fun e he => Ordinary.holds e ?_
  unfold ClassLayout.attrOffset at he
  split at he <;> cases he
  exact nofun

instance (l : ClassLayout) (x : Name) : Confined F (ofExcept (l.methodOffset x)) := by
  refine confined_ofExcept fun e he => Ordinary.holds e ?_
  unfold ClassLayout.methodOffset at he
  split at he <;> cases he
  exact nofun

/-! ### Expressions -/

instance (hops : Int) : Confined F (frameWalk c hops) := by
  unfold frameWalk
  infer_instance

instance (x : Name) : Confined F (loadVariable c x) := by
  unfold loadVariable
  split <;> infer_instance

instance (x : Name) : Confined F (storeVariable c x) := by
  unfold storeVariable
  split <;> infer_instance

instance (parent : Nat) : Confined F (pushStaticLink c parent) := by
  unfold pushStaticLink
  infer_instance

instance (value target : Option Ty) : Confined F (box value target) := by
  unfold box
  infer_instance

instance (k : Cond) (r₁ r₂ : Reg) (text : String) : Confined F (comparison k r₁ r₂ text) := by
  unfold comparison
  infer_instance

instance : Confined F floorDiv := by
  unfold floorDiv
  infer_instance

instance : Confined F floorMod := by
  unfold floorMod
  infer_instance

instance (l : Lit) : Confined F (literal l) := by
  unfold literal
  split <;> infer_instance

variable {l r : Emit Unit} [Confined F l] [Confined F r]

instance (e : Expr) (target : Option Ty) : Confined F (asType e l target) := by
  unfold asType
  split
  · infer_instance
  · split <;> infer_instance

instance : Confined F (operands l r) := by
  unfold operands
  infer_instance

instance (routine : String) : Confined F (runtimeCall routine l r) := by
  unfold runtimeCall
  infer_instance

instance (result elem : Option Ty) : Confined F (concatOperand result elem l) := by
  unfold concatOperand
  infer_instance

instance (result left right : Option Ty) : Confined F (concat result left right l r) := by
  unfold concat
  infer_instance

instance (op : BinOp) (result left right : Option Ty) :
    Confined F (binary op result left right l r) := by
  cases op <;> simp only [binary] <;> infer_instance

instance : Confined F (elementAddress l r) := by
  unfold elementAddress
  infer_instance

instance (layout : ClassLayout) : Confined F (construct c layout) := by
  unfold construct
  infer_instance

instance (label : Label) (x : Name) (n : Nat) : Confined F (callLabel label x n) := by
  unfold callLabel
  infer_instance

end Codegen

mutual

theorem Expr.gen_confined (F : CodegenFault → Prop) [Ordinary F] (c : Context) :
    ∀ e : Expr, Confined F (e.gen c)
  | .lit l => by
    simp only [Expr.gen]
    infer_instance
  | .name id => by
    simp only [Expr.gen]
    infer_instance
  | .unary _ op e => by
    have := e.gen_confined F c
    simp only [Expr.gen]
    cases op <;> infer_instance
  | .binary _ l op r => by
    have := l.gen_confined F c
    have := r.gen_confined F c
    simp only [Expr.gen]
    infer_instance
  | .cond _ test yes no => by
    have := test.gen_confined F c
    have := yes.gen_confined F c
    have := no.gen_confined F c
    simp only [Expr.gen]
    infer_instance
  | .list m elems => by
    have := Expr.genElems_confined F c (m.type?.bind Ty.elem?) elems
    simp only [Expr.gen]
    infer_instance
  | .index _ seq i => by
    have := seq.gen_confined F c
    have := i.gen_confined F c
    simp only [Expr.gen]
    infer_instance
  | .member _ object id => by
    have := object.gen_confined F c
    simp only [Expr.gen]
    infer_instance
  | .call _ id args => by
    have := fun ts => Expr.genArgs_confined F c ts args
    simp only [Expr.gen]
    split
    · infer_instance
    · split <;> infer_instance
  | .methodCall _ _ object id args => by
    have := object.gen_confined F c
    have := fun ts => Expr.genArgs_confined F c ts args
    simp only [Expr.gen]
    infer_instance

theorem Expr.genElems_confined (F : CodegenFault → Prop) [Ordinary F] (c : Context)
    (elem : Option Ty) : ∀ es : List Expr, Confined F (Expr.genElems c elem es)
  | [] => by
    simp only [Expr.genElems]
    infer_instance
  | e :: es => by
    have := e.gen_confined F c
    have := Expr.genElems_confined F c elem es
    simp only [Expr.genElems]
    infer_instance

theorem Expr.genArgs_confined (F : CodegenFault → Prop) [Ordinary F] (c : Context) :
    ∀ (ts : List Ty) (es : List Expr), Confined F (Expr.genArgs c ts es)
  | _, [] => by
    simp only [Expr.genArgs]
    infer_instance
  | [], _ :: _ => by
    simp only [Expr.genArgs]
    infer_instance
  | t :: ts, e :: es => by
    have := e.gen_confined F c
    have := Expr.genArgs_confined F c ts es
    simp only [Expr.genArgs]
    infer_instance

end

section

variable (c : Context) (e : Expr)

instance : Confined F (e.gen c) := e.gen_confined F c

instance (elem : Option Ty) (es : List Expr) : Confined F (Expr.genElems c elem es) :=
  Expr.genElems_confined F c elem es

instance (ts : List Ty) (es : List Expr) : Confined F (Expr.genArgs c ts es) :=
  Expr.genArgs_confined F c ts es

end

/-! ### Statements -/

namespace Codegen

variable (c : Context)

instance (e : Expr) : Confined F (store c e) := by
  unfold store
  split <;> infer_instance

theorem storeAll_confined (value : Option Ty) : ∀ es : List Expr, Confined F (storeAll c value es)
  | [] => by
    unfold storeAll
    infer_instance
  | e :: es => by
    have := storeAll_confined value es
    unfold storeAll
    infer_instance

instance (value : Option Ty) (es : List Expr) : Confined F (storeAll c value es) :=
  storeAll_confined F c value es

instance (targets : List Expr) (value : Expr) : Confined F (assign c targets value) := by
  unfold assign
  split <;> infer_instance

variable {test yes body : Emit Unit} [Confined F test] [Confined F yes] [Confined F body]

omit [Ordinary F] in
theorem conditional_confined {no? : Option (Emit Unit)} (h : ∀ no, no? = some no → Confined F no) :
    Confined F (conditional test yes no?) := by
  unfold conditional
  cases no? with
  | none => infer_instance
  | some no =>
    have := h no rfl
    infer_instance

instance : Confined F (whileLoop test body) := by
  unfold whileLoop
  infer_instance

instance (iterable : Option Ty) : Confined F (nextElement iterable) := by
  unfold nextElement
  infer_instance

instance (slots : Int × Int) (id : Ident) (iterable : Option Ty) :
    Confined F (forLoop c slots id iterable test body) := by
  unfold forLoop
  infer_instance

theorem initLocals_confined (table : Bindings Entry) :
    ∀ ds : List LocalDecl, Confined F (initLocals c table ds)
  | [] => by
    unfold initLocals
    infer_instance
  | .var d :: ds => by
    have := initLocals_confined table ds
    unfold initLocals
    infer_instance
  | .global _ _ :: ds => by
    unfold initLocals
    exact initLocals_confined table ds
  | .nonlocal _ _ :: ds => by
    unfold initLocals
    exact initLocals_confined table ds
  | .func _ :: ds => by
    unfold initLocals
    exact initLocals_confined table ds

instance (table : Bindings Entry) (ds : List LocalDecl) : Confined F (initLocals c table ds) :=
  initLocals_confined F c table ds

end Codegen

mutual

/-- Where the frame leaves words for its `for` statements, a statement does not miss them. -/
theorem Stmt.gen_confined (F : CodegenFault → Prop) [Ordinary F] (c : Context) :
    ∀ (k : Nat) (s : Stmt), k + s.forCount ≤ c.frame.fors ∨ F .noForSlots → Confined F (s.gen c k)
  | k, .expr _ e, _ => by
    simp only [Stmt.gen]
    infer_instance
  | k, .assign _ targets value, _ => by
    simp only [Stmt.gen]
    infer_instance
  | k, .ite _ test yes no, h => by
    simp only [Stmt.forCount] at h
    have := Stmt.genAll_confined F c k yes (h.imp_left (by omega))
    simp only [Stmt.gen]
    refine conditional_confined F fun code hcode => ?_
    split at hcode
    · cases hcode
    · cases hcode
      exact Stmt.genAll_confined F c _ no (h.imp_left (by omega))
  | k, .loop _ test body, h => by
    simp only [Stmt.forCount] at h
    have := Stmt.genAll_confined F c k body h
    simp only [Stmt.gen]
    infer_instance
  | k, .each _ id iterable body, h => by
    simp only [Stmt.forCount] at h
    have := Stmt.genAll_confined F c (k + 1) body (h.imp_left (by omega))
    have : Confined F (need (c.frame.forSlots? k) .noForSlots) := by
      refine confined_need fun hnone => h.resolve_left fun hk => ?_
      rw [Frame.forSlots?, if_pos (by omega)] at hnone
      cases hnone
    simp only [Stmt.gen]
    infer_instance
  | k, .ret _ none, _ => by
    simp only [Stmt.gen]
    infer_instance
  | k, .ret _ (some e), _ => by
    simp only [Stmt.gen]
    infer_instance

theorem Stmt.genAll_confined (F : CodegenFault → Prop) [Ordinary F] (c : Context) :
    ∀ (k : Nat) (ss : List Stmt), k + Stmt.forCounts ss ≤ c.frame.fors ∨ F .noForSlots →
      Confined F (Stmt.genAll c k ss)
  | k, [], _ => by
    simp only [Stmt.genAll]
    infer_instance
  | k, s :: ss, h => by
    simp only [Stmt.forCounts] at h
    have := Stmt.gen_confined F c k s (h.imp_left (by omega))
    have := Stmt.genAll_confined F c (k + s.forCount) ss (h.imp_left (by omega))
    simp only [Stmt.genAll]
    infer_instance

end

instance (c : Context) (k : Nat) (s : Stmt) : Confined (fun _ => True) (s.gen c k) :=
  s.gen_confined _ c k (.inr trivial)

instance (c : Context) (k : Nat) (ss : List Stmt) :
    Confined (fun _ => True) (Stmt.genAll c k ss) :=
  Stmt.genAll_confined _ c k ss (.inr trivial)

/-! ### Listings -/

namespace Codegen

theorem emitMain_confined {c : Context} {body : List Stmt}
    (h : Stmt.forCounts body ≤ c.frame.fors ∨ F .noForSlots) : Confined F (emitMain c body) := by
  have := Stmt.genAll_confined F c 0 body (h.imp_left (by omega))
  unfold emitMain
  infer_instance

theorem enter_frame {globals : Scope} {layouts : List ClassLayout} {s : FrameSite}
    {r : Context × Scope} (h : enter globals layouts s = some r) : r.1.frame = s.frame := by
  simp only [enter, Option.bind_eq_bind, Option.bind_eq_some_iff] at h
  obtain ⟨_, _, _, _, _, _, _, _, ⟨⟩⟩ := h
  rfl

theorem emitFunction_confined {globals : Scope} {layouts : List ClassLayout} {s : FrameSite}
    (h : Stmt.forCounts s.defn.body ≤ s.frame.fors ∨ F .noForSlots) :
    Confined F (emitFunction globals layouts s) := by
  unfold emitFunction
  refine confined_needThen (fun _ => Ordinary.holds _ nofun) fun r hr => ?_
  rw [← enter_frame hr] at h
  have := Stmt.genAll_confined F r.1 0 s.defn.body (h.imp_left (by omega))
  infer_instance

instance (globals : Scope) (layouts : List ClassLayout) (s : FrameSite) :
    Confined (fun _ => True) (emitFunction globals layouts s) :=
  emitFunction_confined _ (.inr trivial)

instance (l : Label) (code : Int) (message : String) :
    Confined F (errorHandler l code message) := by
  unfold errorHandler
  infer_instance

instance : Confined F emitHelpers := by
  unfold emitHelpers
  infer_instance

instance (value : Lit) (target : Ty) (comment : Bytes) :
    Confined F (literalWord value target comment) := by
  cases value <;> simp only [literalWord] <;> infer_instance

instance (l : ClassLayout) : Confined F (emitPrototype l) := by
  unfold emitPrototype
  infer_instance

theorem emitGlobals_confined (globals : Scope) :
    ∀ ds : List TopDecl, Confined F (emitGlobals globals ds)
  | [] => by
    unfold emitGlobals
    infer_instance
  | .var d :: ds => by
    have := emitGlobals_confined globals ds
    unfold emitGlobals
    infer_instance
  | .func _ :: ds => by
    unfold emitGlobals
    exact emitGlobals_confined globals ds
  | .cls _ :: ds => by
    unfold emitGlobals
    exact emitGlobals_confined globals ds

instance (globals : Scope) (ds : List TopDecl) : Confined F (emitGlobals globals ds) :=
  emitGlobals_confined F globals ds

instance : Confined F emitPool := ⟨fun _ _ _ _ h => by cases h; exact .refl _, nofun⟩

/-- A program has ordinary faults only, where each frame leaves words for its `for` statements. -/
theorem emitProgram_confined {globals : Scope} {layouts : List ClassLayout} {p : Program}
    (h : ∀ s ∈ p.frames, Stmt.forCounts s.defn.body ≤ s.frame.fors) :
    Confined F (emitProgram globals layouts p) := by
  have : Confined F (emitMain ⟨globals, layouts, p.mainFrame, [], .noneType, []⟩ p.body) :=
    emitMain_confined F (.inl (Nat.le_refl _))
  have : Confined F (p.frames.forM (emitFunction globals layouts)) :=
    confined_forM fun s hs => emitFunction_confined F (.inl (h s hs))
  unfold emitProgram
  infer_instance

end Codegen

/-! ### Layouts and programs -/

namespace ClassLayout

variable {globals : Scope} {e : CodegenFault}

theorem addMember_fault {members : Scope} {l : ClassLayout} {m : Member}
    (h : addMember members l m = .error e) : e = .untyped := by
  cases m with
  | attr d =>
    simp only [addMember] at h
    split at h <;> cases h
    rfl
  | method f => cases h

theorem addMembers_fault {members : Scope} : ∀ {ms : List Member} {l : ClassLayout},
    ms.foldlM (addMember members) l = .error e → e = .untyped
  | [], _, h => by cases h
  | m :: ms, l, h => by
    rw [List.foldlM_cons] at h
    cases hm : addMember members l m with
    | error e' =>
      rw [hm] at h
      cases h
      exact addMember_fault hm
    | ok l' =>
      rw [hm] at h
      exact addMembers_fault (h : ms.foldlM (addMember members) l' = .error e)

theorem ofClass_fault {layouts : List ClassLayout} {tag : Int} {c : ClassDef}
    (h : ofClass globals layouts tag c = .error e) : e = .untyped := by
  simp only [ofClass] at h
  cases hmembers : globals.child? c.name with
  | none =>
    rw [hmembers] at h
    cases h
    rfl
  | some members =>
    rw [hmembers] at h
    exact addMembers_fault h

theorem extend_fault : ∀ {cs : List ClassDef} {layouts : List ClassLayout} {tag : Int},
    extend globals layouts tag cs = .error e → e = .untyped
  | [], _, _, h => by cases h
  | c :: cs, layouts, tag, h => by
    rw [extend] at h
    cases hc : ofClass globals layouts tag c with
    | error e' =>
      rw [hc] at h
      cases h
      exact ofClass_fault hc
    | ok l =>
      rw [hc] at h
      exact extend_fault (h : extend globals (layouts ++ [l]) _ cs = .error e)

end ClassLayout

theorem Program.items_fault {p : Program} {globals : Scope}
    (hfors : ∀ s ∈ p.frames, Stmt.forCounts s.defn.body ≤ s.frame.fors) {e : CodegenFault}
    (h : p.items globals = .error e) : F e := by
  unfold Program.items at h
  cases hlayouts : p.layouts globals with
  | error e' =>
    rw [hlayouts] at h
    cases h
    rw [ClassLayout.extend_fault hlayouts]
    exact Ordinary.holds _ nofun
  | ok layouts =>
    rw [hlayouts] at h
    have h : (emitProgram globals layouts p {} >>= fun r => pure r.2.1) = .error e := h
    cases hcode : emitProgram globals layouts p {} with
    | error e' =>
      rw [hcode] at h
      cases h
      exact (emitProgram_confined F hfors).faults _ _ hcode
    | ok r =>
      rw [hcode] at h
      cases h

end ChocoRv
