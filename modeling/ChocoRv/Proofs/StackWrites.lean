import ChocoRv.Proofs.Emitting
import Mathlib.Tactic.Common

/-!
# What expressions write

The code of an expression writes no memory but words that it pushes: all its stores go through `sp`.
Objects are written by statements and by the routines that expressions call.
-/

namespace ChocoRv

open Asm

namespace Asm.Instr

/-- Whether memory stays as it is. -/
def isSilent : Instr → Bool
  | store .. | storeLabel .. => false
  | _ => true

/-- Whether the instruction writes nothing but a word on the stack. -/
def writesStack : Instr → Bool
  | store .sw _ .sp _ => true
  | i => i.isSilent

/-- Nothing but `t0` changes. -/
def isWalk : Instr → Bool
  | move _ .t0 _ | load .lw .t0 _ _ => true
  | _ => false

theorem writesStack_of_isSilent {i : Instr} (h : i.isSilent = true) : i.writesStack = true := by
  unfold writesStack
  split
  · rfl
  · exact h

end Asm.Instr

/-- Every instruction of the code satisfies `P`. -/
def Asm.Every (P : Instr → Bool) (code : List Item) : Prop :=
  ∀ i c, Item.instr i c ∈ code → P i = true

namespace Asm.Every

variable {P Q : Instr → Bool} {code more : List Item}

theorem append (h : Every P code) (h' : Every P more) : Every P (code ++ more) := fun i c hi =>
  (List.mem_append.1 hi).elim (h i c) (h' i c)

theorem mono (h : Every P code) (hPQ : ∀ i, P i = true → Q i = true) : Every Q code :=
  fun i c hi => hPQ i (h i c hi)

end Asm.Every

namespace Emit

variable {α β : Type} {P : Instr → Bool}

/-- Every instruction that the computation emits satisfies `P`. -/
def Every (P : Instr → Bool) (x : Emit α) : Prop := ∀ s, All x s fun _ code _ => Asm.Every P code

theorem Every.silent {x : Emit α} (h : ∀ s, All x s fun _ code _ => code = []) : Every P x := by
  intro s a code s' hx
  rw [h s a code s' hx]
  exact fun i c hi => absurd hi List.not_mem_nil

theorem Every.bind {x : Emit α} {f : α → Emit β} (hx : Every P x)
    (hf : ∀ a, Every P (f a)) : Every P (x >>= f) := by
  intro s
  rw [all_bind]
  exact fun a code s₁ h b more s₂ h' => (hx s a code s₁ h).append (hf a s₁ b more s₂ h')

theorem Every.pure (a : α) : Every P (pure a : Emit α) :=
  .silent fun _ => (all_pure a).2 rfl

theorem Every.fail (e : CodegenFault) : Every P (fail e : Emit α) := fun _ => all_fail e

theorem Every.need (a? : Option α) (e : CodegenFault) : Every P (need a? e) :=
  .silent fun _ => (all_need a? e).2 fun _ _ => rfl

theorem Every.ofExcept (r : Except CodegenFault α) : Every P (ofExcept r) :=
  .silent fun _ => (all_ofExcept r).2 fun _ _ => rfl

theorem Every.fresh (stem : String) : Every P (fresh stem) :=
  .silent fun _ => (all_fresh stem).2 rfl

theorem Every.intConstant (n : Int) : Every P (intConstant n) :=
  .silent fun _ => (all_intConstant n).2 rfl

theorem Every.strConstant (v : Bytes) : Every P (strConstant v) :=
  .silent fun _ => (all_strConstant v).2 rfl

theorem Every.label (l : Label) : Every P (label l) := by
  intro s
  rw [Emit.label, all_items]
  rintro i c hi
  cases List.mem_singleton.1 hi

theorem Every.instr {i : Instr} (h : P i = true) (c : String) : Every P (instr i c) := by
  intro s
  rw [Emit.instr, all_items]
  rintro j c' hj
  cases List.mem_singleton.1 hj
  exact h

theorem Every.instrOf {i : Instr} (h : P i = true) (c : String) (x : Name) :
    Every P (instrOf i c x) := by
  intro s
  rw [Emit.instrOf, all_items]
  rintro j c' hj
  cases List.mem_singleton.1 hj
  exact h

theorem Every.forM {γ : Type} {f : γ → Emit Unit} (hf : ∀ c, Every P (f c)) :
    ∀ cs : List γ, Every P (cs.forM f)
  | [] => .pure ()
  | c :: cs => by
    show Every P (f c >>= fun _ => cs.forM f)
    exact .bind (hf c) fun _ => Every.forM hf cs

theorem Every.mono {Q : Instr → Bool} {x : Emit α} (h : Every P x)
    (hPQ : ∀ i, P i = true → Q i = true) : Every Q x :=
  fun s a code s' hx => (h s a code s' hx).mono hPQ

/-- All that the computation writes is on the stack. -/
abbrev WritesStack (x : Emit α) : Prop := Every Instr.writesStack x

theorem push_writesStack (r : Reg) (c : String) : WritesStack (push r c) :=
  .bind (.instr rfl _) fun _ => .instr rfl c

theorem pop_writesStack (r : Reg) : WritesStack (pop r) :=
  .bind (.instr rfl _) fun _ => .instr rfl _

theorem popDiscard_writesStack (n : Nat) : WritesStack (popDiscard n) := .instr rfl _

end Emit

open Emit

namespace Codegen

theorem frameWalk_isWalk (c : Context) (hops : Int) : Every Instr.isWalk (frameWalk c hops) := by
  unfold frameWalk
  split
  · exact .instr rfl _
  · exact .bind (.instr rfl _) fun _ => .forM (fun f => .instr rfl _) _

theorem frameWalk_writesStack (c : Context) (hops : Int) :
    WritesStack (frameWalk c hops) :=
  (frameWalk_isWalk c hops).mono fun i hi => by cases i <;> first | rfl | cases hi

theorem loadVariable_writesStack (c : Context) (x : Name) : WritesStack (loadVariable c x) := by
  unfold loadVariable
  split
  · exact .instrOf rfl _ _
  · split
    · exact .instrOf rfl _ _
    · exact .bind (frameWalk_writesStack c _) fun _ => .instrOf rfl _ _

theorem pushStaticLink_writesStack (c : Context) (n : Nat) :
    WritesStack (pushStaticLink c n) :=
  .bind (frameWalk_writesStack c _) fun _ => push_writesStack _ _

theorem box_writesStack (value target : Option Ty) : WritesStack (box value target) := by
  unfold box
  split_ifs
  · exact .pure ()
  · exact .instr rfl _
  · exact .instr rfl _
  · exact .pure ()

theorem comparison_writesStack (c : Cond) (r₁ r₂ : Reg) (text : String) :
    WritesStack (comparison c r₁ r₂ text) := by
  refine .bind (.fresh _) fun _ => .bind (.fresh _) fun _ => .bind (.instr rfl _) fun _ => ?_
  refine .bind (.instr rfl _) fun _ => .bind (.instr rfl _) fun _ => .bind (.label _) fun _ => ?_
  exact .bind (.instr rfl _) fun _ => .label _

theorem floorDiv_writesStack : WritesStack floorDiv := by
  refine .bind (.fresh _) fun _ => ?_
  iterate 7 refine .bind (.instr rfl _) fun _ => ?_
  exact .bind (.label _) fun _ => .instr rfl _

theorem floorMod_writesStack : WritesStack floorMod := by
  refine .bind (.fresh _) fun _ => ?_
  iterate 6 refine .bind (.instr rfl _) fun _ => ?_
  exact .bind (.label _) fun _ => .instr rfl _

theorem literal_writesStack (l : Lit) : WritesStack (literal l) := by
  cases l with
  | str v => exact .bind (.strConstant v) fun _ => .instr rfl _
  | int | bool | none => exact .instr rfl _

theorem asType_writesStack {e : Expr} {code : Emit Unit} (h : WritesStack code)
    (target : Option Ty) : WritesStack (asType e code target) := by
  unfold asType
  split
  · exact h
  · split
    · exact .bind (.intConstant _) fun _ => .instr rfl _
    · exact .instr rfl _
    · exact .bind h fun _ => box_writesStack _ _

theorem operands_writesStack {l r : Emit Unit} (hl : WritesStack l) (hr : WritesStack r) :
    WritesStack (operands l r) :=
  .bind hl fun _ => .bind (push_writesStack _ _) fun _ => .bind hr fun _ => pop_writesStack _

theorem runtimeCall_writesStack (routine : String) {l r : Emit Unit} (hl : WritesStack l)
    (hr : WritesStack r) : WritesStack (runtimeCall routine l r) :=
  .bind hl fun _ => .bind (push_writesStack _ _) fun _ => .bind hr fun _ =>
    .bind (push_writesStack _ _) fun _ => .bind (.instr rfl _) fun _ => popDiscard_writesStack 2

theorem concatOperand_writesStack (result elem : Option Ty) {code : Emit Unit}
    (h : WritesStack code) : WritesStack (concatOperand result elem code) := by
  refine .bind h fun _ => .bind (push_writesStack _ _) fun _ => ?_
  split_ifs
  · exact push_writesStack _ _
  · exact .bind (.instr rfl _) fun _ => push_writesStack _ _
  · exact .bind (.instr rfl _) fun _ => push_writesStack _ _

theorem concat_writesStack (result left right : Option Ty) {l r : Emit Unit}
    (hl : WritesStack l) (hr : WritesStack r) : WritesStack (concat result left right l r) :=
  .bind (concatOperand_writesStack _ _ hl) fun _ => .bind (concatOperand_writesStack _ _ hr)
    fun _ => .bind (.instr rfl _) fun _ => popDiscard_writesStack 4

theorem binary_writesStack (op : BinOp) (result left right : Option Ty) {l r : Emit Unit}
    (hl : WritesStack l) (hr : WritesStack r) : WritesStack (binary op result left right l r) := by
  have hops := operands_writesStack hl hr
  cases op <;> simp only [binary]
  case and =>
    exact .bind (.fresh _) fun _ => .bind hl fun _ => .bind (.instr rfl _) fun _ =>
      .bind hr fun _ =>
      .label _
  case or =>
    exact .bind (.fresh _) fun _ => .bind hl fun _ => .bind (.instr rfl _) fun _ =>
      .bind hr fun _ =>
      .label _
  case add =>
    split_ifs
    · exact runtimeCall_writesStack _ hl hr
    · exact .bind hops fun _ => .instr rfl _
    · exact concat_writesStack _ _ _ hl hr
  case sub => exact .bind hops fun _ => .instr rfl _
  case mul => exact .bind hops fun _ => .instr rfl _
  case floorDiv => exact .bind hops fun _ => floorDiv_writesStack
  case mod => exact .bind hops fun _ => floorMod_writesStack
  case eq =>
    split_ifs
    · exact runtimeCall_writesStack _ hl hr
    · exact .bind hops fun _ => comparison_writesStack _ _ _ _
  case ne =>
    split_ifs
    · exact runtimeCall_writesStack _ hl hr
    · exact .bind hops fun _ => comparison_writesStack _ _ _ _
  all_goals exact .bind hops fun _ => comparison_writesStack _ _ _ _

theorem elementAddress_writesStack {seq i : Emit Unit} (hseq : WritesStack seq)
    (hi : WritesStack i) : WritesStack (elementAddress seq i) := by
  refine .bind (operands_writesStack hseq hi) fun _ => ?_
  iterate 5 refine .bind (.instr rfl _) fun _ => ?_
  exact .instr rfl _

theorem construct_writesStack (c : Context) (l : ClassLayout) : WritesStack (construct c l) := by
  refine .bind (.instr rfl _) fun _ => .bind (.instrOf rfl _ _) fun _ => ?_
  refine .bind (push_writesStack _ _) fun _ => .bind (pushStaticLink_writesStack c 0) fun _ => ?_
  refine .bind (push_writesStack _ _) fun _ => .bind (.instr rfl _) fun _ => ?_
  refine .bind (.ofExcept _) fun _ => .bind (.instr rfl _) fun _ => .bind (.instr rfl _) fun _ => ?_
  exact .bind (popDiscard_writesStack 2) fun _ => pop_writesStack _

theorem callLabel_writesStack (l : Label) (x : Name) (n : Nat) : WritesStack (callLabel l x n) :=
  .bind (.instrOf rfl _ _) fun _ => popDiscard_writesStack _

end Codegen

open Codegen

mutual

/-- The code of an expression writes nothing but the stack. -/
theorem Expr.gen_writesStack (c : Codegen.Context) : ∀ e : Expr, WritesStack (e.gen c)
  | .lit l => literal_writesStack l.value
  | .name id => loadVariable_writesStack c id.name
  | .unary _ op e => by
    simp only [Expr.gen]
    refine .bind (e.gen_writesStack c) fun _ => ?_
    cases op <;> exact .instr rfl _
  | .binary _ l op r =>
    binary_writesStack _ _ _ _ (l.gen_writesStack c) (r.gen_writesStack c)
  | .cond m test yes no => by
    simp only [Expr.gen]
    refine .bind (.fresh _) fun _ => .bind (.fresh _) fun _ => .bind (test.gen_writesStack c) ?_
    refine fun _ => .bind (.instr rfl _) fun _ => ?_
    refine .bind (asType_writesStack (yes.gen_writesStack c) _) fun _ => .bind (.instr rfl _) ?_
    refine fun _ => .bind (.label _) fun _ => ?_
    exact .bind (asType_writesStack (no.gen_writesStack c) _) fun _ => .label _
  | .list m elems => by
    simp only [Expr.gen]
    refine .bind (Expr.genElems_writesStack c _ elems) fun _ => .bind (.instr rfl _) fun _ => ?_
    exact .bind (push_writesStack _ _) fun _ => .bind (.instr rfl _) fun _ =>
      popDiscard_writesStack _
  | .index _ seq i => by
    simp only [Expr.gen]
    split
    · exact runtimeCall_writesStack _ (seq.gen_writesStack c) (i.gen_writesStack c)
    · exact .bind (elementAddress_writesStack (seq.gen_writesStack c) (i.gen_writesStack c))
        fun _ => .instr rfl _
  | .member _ object id => by
    simp only [Expr.gen]
    refine .bind (object.gen_writesStack c) fun _ => .bind (.instr rfl _) fun _ => ?_
    exact .bind (.ofExcept _) fun _ => .bind (.ofExcept _) fun _ => .instrOf rfl _ _
  | .call _ id args => by
    have hargs := fun ts => Expr.genArgs_writesStack c ts args
    simp only [Expr.gen]
    split
    · exact .bind (pushStaticLink_writesStack c _) fun _ => .bind (.need _ _) fun ty =>
        .bind (hargs _) fun _ => callLabel_writesStack _ _ _
    · split
      · exact construct_writesStack c _
      · exact .bind (.need _ _) fun l => .bind (pushStaticLink_writesStack c _) fun _ =>
          .bind (.need _ _) fun ty => .bind (hargs _) fun _ => callLabel_writesStack _ _ _
  | .methodCall _ _ object id args => by
    have hargs := fun ts => Expr.genArgs_writesStack c ts args
    simp only [Expr.gen]
    refine .bind (.ofExcept _) fun _ => .bind (.need _ _) fun ty => ?_
    refine .bind (pushStaticLink_writesStack c _) fun _ => .bind (.need _ _) fun self => ?_
    refine .bind (asType_writesStack (object.gen_writesStack c) _) fun _ => ?_
    refine .bind (push_writesStack _ _) fun _ => .bind (hargs _) fun _ => ?_
    refine .bind (.instr rfl _) fun _ => .bind (.instr rfl _) fun _ => .bind (.instr rfl _) ?_
    refine fun _ => .bind (.ofExcept _) fun _ => .bind (.instrOf rfl _ _) fun _ => ?_
    exact .bind (.instr rfl _) fun _ => popDiscard_writesStack _

theorem Expr.genElems_writesStack (c : Codegen.Context) (elem : Option Ty) :
    ∀ es : List Expr, WritesStack (Expr.genElems c elem es)
  | [] => by
    simp only [Expr.genElems]
    exact .pure ()
  | e :: es => by
    simp only [Expr.genElems]
    exact .bind (asType_writesStack (e.gen_writesStack c) _) fun _ =>
      .bind (push_writesStack _ _) fun _ => Expr.genElems_writesStack c elem es

theorem Expr.genArgs_writesStack (c : Codegen.Context) :
    ∀ (ts : List Ty) (es : List Expr), WritesStack (Expr.genArgs c ts es)
  | _, [] => by
    simp only [Expr.genArgs]
    exact .pure ()
  | [], _ :: _ => by
    simp only [Expr.genArgs]
    exact .fail _
  | t :: ts, e :: es => by
    simp only [Expr.genArgs]
    exact .bind (asType_writesStack (e.gen_writesStack c) _) fun _ =>
      .bind (push_writesStack _ _) fun _ => Expr.genArgs_writesStack c ts es

end

end ChocoRv
