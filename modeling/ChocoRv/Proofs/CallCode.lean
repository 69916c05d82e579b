import ChocoRv.Proofs.Callees

/-!
# The code of calls

The code of a call pushes a static link and the arguments in order, goes to the callee and takes
all of it back. A constructor has the new object on the stack around that.
-/

namespace ChocoRv

open Asm Codegen Emit

/-! ### Parts of the code of a call -/

@[simp] theorem txt_empty : txt "" = [] := rfl

/-- The code that pushes a register. -/
def pushCode (r : Reg) (c : Bytes) : List Item :=
  [.instr (.opImm .addi .sp .sp (-wordSize)) [], .instr (.store .sw r .sp 0) c]

/-- The code of each argument with the comment on its push. -/
def argsCode (args : List (List Item × Bytes)) : List Item :=
  args.flatMap fun a => a.1 ++ pushCode .a0 a.2

@[simp] theorem argsCode_nil : argsCode [] = [] := rfl

theorem argsCode_cons (a : List Item × Bytes) (args : List (List Item × Bytes)) :
    argsCode (a :: args) = a.1 ++ (pushCode .a0 a.2 ++ argsCode args) := by
  rw [argsCode, List.flatMap_cons, List.append_assoc]
  rfl

/-- A call in its parts. -/
structure CallParts where
  /-- Leaves the static link in `t0`. -/
  link : List Item
  args : List (List Item × Bytes)
  /-- What goes to the callee. -/
  transfer : List Item

namespace CallParts

/-- What takes the static link and the arguments back. -/
def release (k : CallParts) : List Item :=
  [.instr (.opImm .addi .sp .sp (wordSize * (k.args.length + 1) : Nat)) []]

def code (k : CallParts) : List Item :=
  k.link ++ pushCode .t0 (txt "static link") ++ argsCode k.args ++ k.transfer ++ k.release

end CallParts

/-- The code leaves the value of the expression in `a0`. -/
def Expr.HasCode (c : Context) (e : Expr) (code : List Item) : Prop :=
  ∃ target s s', asType e (e.gen c) target s = .ok ((), code, s')

/-- The code leaves the static link of a function inside a frame at `depth` in `t0`. -/
def Codegen.Context.HasLink (c : Context) (depth : Nat) (code : List Item) : Prop :=
  ∃ s s', frameWalk c (hopsTo c depth) s = .ok ((), code, s')

/-- From an object in `a0` to its method at an offset of the dispatch table. -/
def dispatchCode (o : Int) (c : Bytes) : List Item :=
  [.instr (.load .lw .a1 .a0 dispatchOffset) (txt "dispatch table"),
   .instr (.load .lw .a1 .a1 o) c, .instr (.jalr .a1) []]

/-- The parts of the code of a call with what comes before and after them: only a constructor has
the new object on the stack below. Its argument is the object, that of a method starts with it. -/
inductive Expr.CallCode (c : Context) : Expr → List Item → CallParts → List Item → Prop
  | func {m : Mark} {id : Ident} {args : List Expr} {parent : Frame} {k : CallParts}
      (h : Frame.resolveFunc? id.name c.chain = some parent) (hlink : c.HasLink parent.depth k.link)
      (hargs : List.Forall₂ (fun e a => e.HasCode c a.1) args k.args)
      (htransfer : k.transfer = [.instr (.jal (parent.childLabel id.name))
        (txt "call " ++ parent.childName id.name)]) :
    CallCode c (.call m id args) [] k []
  | constructor {m : Mark} {id : Ident} {args : List Expr} {layout : ClassLayout} {o : Int}
      {k : CallParts} (h : Frame.resolveFunc? id.name c.chain = none)
      (hlayout : ClassLayout.find? c.layouts id.name = some layout)
      (ho : layout.methodOffset initName = .ok o) (hlink : c.HasLink 0 k.link)
      (hargs : k.args = [([], txt "self")]) (htransfer : k.transfer = dispatchCode o initName) :
    CallCode c (.call m id args)
      ([.instr (.la .a0 layout.prototypeLabel) [],
        .instr (.jal (txt "alloc")) (txt "new " ++ layout.name)] ++ pushCode .a0 (txt "new object"))
      k [.instr (.load .lw .a0 .sp 0) [], .instr (.opImm .addi .sp .sp wordSize) []]
  | method {m m' : Mark} {object : Expr} {id : Ident} {args : List Expr} {layout : ClassLayout}
      {o : Int} {k : CallParts} (hlayout : c.layoutOf object.type? = .ok layout)
      (ho : layout.methodOffset id.name = .ok o) (hlink : c.HasLink 0 k.link)
      (hargs : List.Forall₂ (fun e a => e.HasCode c a.1) (object :: args) k.args)
      (htransfer : k.transfer =
        [.instr (.load .lw .a0 .sp (wordSize * args.length : Nat)) (txt "self"),
          .instr (.branchZero .beqz .a0 errorNone) []] ++ dispatchCode o id.name) :
    CallCode c (.methodCall m m' object id args) [] k []

/-! ### What code generation emits -/

variable {c : Context} {s s' : EmitState}

theorem all_push (r : Reg) (comment : String) (s : EmitState) (Q : Post Unit) :
    All (push r comment) s Q ↔ Q () (pushCode r (txt comment)) s := by
  simp only [push, addi, sw, instr, all_bind, all_items]
  rfl

theorem pushStaticLink_code (c : Context) (depth : Nat) :
    All (pushStaticLink c depth) s fun _ code _ =>
      ∃ link, c.HasLink depth link ∧ code = link ++ pushCode .t0 (txt "static link") := by
  simp only [pushStaticLink, all_bind, all_push]
  exact fun _ link s' h => ⟨link, ⟨s, s', h⟩, rfl⟩

theorem Expr.genArgs_code : ∀ (ts : List Ty) (es : List Expr) (s : EmitState),
    All (Expr.genArgs c ts es) s fun _ code _ => ∃ args : List (List Item × Bytes),
      List.Forall₂ (fun e a => e.HasCode c a.1) es args ∧ code = argsCode args
  | _, [], s => by
    simp only [Expr.genArgs, all_pure]
    exact ⟨[], .nil, rfl⟩
  | [], _ :: _, s => by
    simp only [Expr.genArgs]
    exact all_fail _
  | t :: ts, e :: es, s => by
    simp only [Expr.genArgs, all_bind, all_push]
    intro _ code s₁ h _ more s₂ h'
    obtain ⟨args, hargs, rfl⟩ := Expr.genArgs_code ts es s₁ _ _ _ h'
    exact ⟨(code, txt "argument") :: args, .cons ⟨_, _, _, h⟩ hargs, by rw [argsCode_cons]⟩

theorem construct_code {layout : ClassLayout} {m : Mark} {id : Ident} {args : List Expr}
    (h : Frame.resolveFunc? id.name c.chain = none)
    (hlayout : ClassLayout.find? c.layouts id.name = some layout) :
    All (construct c layout) s fun _ code _ => ∃ before k after,
      (Expr.call m id args).CallCode c before k after ∧ code = before ++ k.code ++ after := by
  simp only [construct, la, push, pop, popDiscard, addi, sw, lw, instr, instrOf, all_bind,
    all_items, all_ofExcept]
  intro _ code s₁ hcode o ho
  obtain ⟨link, hlink, rfl⟩ := pushStaticLink_code c 0 _ _ _ hcode
  refine ⟨_, ⟨link, [([], txt "self")], dispatchCode o initName⟩, _,
    .constructor h hlayout ho hlink rfl rfl, ?_⟩
  simp [CallParts.code, CallParts.release, pushCode, argsCode_cons, dispatchCode, initName]

/-- The code of a call that enters a function has these parts. -/
theorem Expr.Enters.code {e : Expr} {l : Label} (h : e.Enters c l) :
    All (e.gen c) s fun _ code _ => ∃ before k after, e.CallCode c before k after ∧
      code = before ++ k.code ++ after := by
  cases h with
  | @func m id args parent hparent =>
    simp only [Expr.gen, hparent, callLabel, popDiscard, addi, instr, instrOf, all_bind, all_items,
      all_need]
    intro _ code s₁ hcode ty _ _ more s₂ hmore
    obtain ⟨link, hlink, rfl⟩ := pushStaticLink_code c parent.depth _ _ _ hcode
    obtain ⟨as, hargs, rfl⟩ := Expr.genArgs_code ty.params args _ _ _ _ hmore
    refine ⟨[], ⟨link, as, _⟩, [], .func hparent hlink hargs rfl, ?_⟩
    simp [CallParts.code, CallParts.release, hargs.length_eq]
  | constructor hnone hlayout =>
    simp only [Expr.gen, hnone, hlayout]
    exact construct_code hnone hlayout
  | @method m m' object id args =>
    simp only [Expr.gen, push, popDiscard, addi, sw, lw, beqz, instr, instrOf, all_bind, all_items,
      all_need, all_ofExcept]
    intro layout hlayout ty _ _ code s₁ hcode self _ _ own s₂ hobject _ more s₃ hmore o ho
    obtain ⟨link, hlink, rfl⟩ := pushStaticLink_code c 0 _ _ _ hcode
    obtain ⟨as, hargs, rfl⟩ := Expr.genArgs_code ty.params.tail args _ _ _ _ hmore
    refine ⟨[], ⟨link, (own, txt "self") :: as, _⟩, [],
      .method hlayout ho hlink (.cons ⟨_, _, _, hobject⟩ hargs) rfl, ?_⟩
    have hlength : args.length + 2 = as.length + 1 + 1 := congrArg (· + 2) hargs.length_eq
    simp [CallParts.code, CallParts.release, dispatchCode, pushCode, argsCode_cons, hlength]

end ChocoRv
