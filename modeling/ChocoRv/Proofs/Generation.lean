import ChocoRv.Proofs.Labels
import ChocoRv.Proofs.Linking

/-!
# Typed code is generated

A context serves a typing context if it finds a place for every variable, a function or class for
every call and a layout for every class of a receiver. Then the code of typed expressions and
statements is generated without a fault and can be linked.
-/

namespace ChocoRv

open Asm Codegen Emit

/-- Labels of the routines that are emitted with every program. -/
def helperLabels : List Label := [txt "makeint", txt "makebool", errorNone, errorDiv, errorOOB]

/-- The routines that every program is linked with are known. -/
def KnowsRoutines (known : Label → Prop) : Prop := ∀ l ∈ runtimeLabels ++ helperLabels, known l

/-- What is found for the call of a name with parameters of these types. -/
inductive Codegen.Context.Finds (c : Context) (known : Label → Prop) (x : Name) (params : List Ty) :
    Prop
  | func {parent : Frame} {ty : FuncTy} (h : Frame.resolveFunc? x c.chain = some parent)
      (hty : c.funcTy? parent x = some ty) (hparams : ty.params = params)
      (hlabel : known (parent.childLabel x)) (hname : newline ∉ parent.childName x)
  | constructor {layout : ClassLayout} {o : Int} (h : Frame.resolveFunc? x c.chain = none)
      (hlayout : ClassLayout.find? c.layouts x = some layout)
      (hinit : layout.methodOffset (txt "__init__") = .ok o)
      (hlabel : known layout.prototypeLabel) (hname : newline ∉ layout.name)
  | builtin {l : Label} {ty : FuncTy} (h : Frame.resolveFunc? x c.chain = none)
      (hlayout : ClassLayout.find? c.layouts x = none) (hl : builtinFuncs.lookup x = some l)
      (hty : (c.globals.get? x).bind Entry.func? = some ty) (hparams : ty.params = params)
      (hlabel : known l)

/-- What the context offers to code that is typed in `t`. -/
structure Codegen.Context.Serves (c : Context) (t : Typing.Context) (known : Label → Prop) :
    Prop where
  routines : KnowsRoutines known
  globals : c.globals = t.globals
  globalVar : ∀ x ty, ValidName x → t.env.get? x = some (.value ty) →
    ∀ l, Frame.resolve x c.chain = .global l → known l
  callee : ∀ x entry params result, ValidName x →
    Typing.Gives (Typing.callee t x) (.func entry params result) → c.Finds known x params
  layout : ∀ o cls, t.classOf? o = some cls → ∃ layout, c.layoutOf (some o) = .ok layout ∧
    layout.name = cls.name ∧
    (∀ x ty, t.member? cls x = some (.value ty) → ∃ o, layout.attrOffset x = .ok o) ∧
    ∀ x f, t.member? cls x = some (.func f) → ∃ o, layout.methodOffset x = .ok o

theorem ValidName.newline {x : Name} (h : ValidName x) : newline ∉ x :=
  h.notMem (by decide) (by decide)

variable {c : Context} {t : Typing.Context} {known : Label → Prop}

namespace Codegen

/-! ### Pieces of code -/

theorem frameWalk_links (c : Context) (hops : Int) : Links known (frameWalk c hops) := by
  unfold frameWalk
  split
  · exact .mv (by decide)
  · exact .bind (.lw (by decide)) fun _ => .forM fun f _ => .lw (by decide)

theorem loadVariable_links {x : Name} (hx : newline ∉ x)
    (hglobal : ∀ l, Frame.resolve x c.chain = .global l → known l) :
    Links known (loadVariable c x) := by
  unfold loadVariable
  split
  · rename_i l hl
    exact .instrOf (show Clean [.a0] _ by decide) hx (by simpa [Instr.label?] using hglobal l hl)
  · split
    · exact .instrOf (show Clean [.a0, .fp] _ by decide) hx (by simp [Instr.label?])
    · refine .bind (frameWalk_links c _) fun _ => ?_
      exact .instrOf (show Clean [.a0, .t0] _ by decide) hx (by simp [Instr.label?])

theorem storeVariable_links {x : Name} (hx : newline ∉ x)
    (hglobal : ∀ l, Frame.resolve x c.chain = .global l → known l) :
    Links known (storeVariable c x) := by
  unfold storeVariable
  split
  · rename_i l hl
    exact .instrOf (show Clean [.a0, .t0] _ by decide) hx
      (by simpa [Instr.label?] using hglobal l hl)
  · split
    · exact .instrOf (show Clean [.a0, .fp] _ by decide) hx (by simp [Instr.label?])
    · refine .bind (frameWalk_links c _) fun _ => ?_
      exact .instrOf (show Clean [.a0, .t0] _ by decide) hx (by simp [Instr.label?])

theorem pushStaticLink_links (c : Context) (n : Nat) : Links known (pushStaticLink c n) :=
  .bind (frameWalk_links c _) fun _ => .push (by decide)

theorem box_links (h : KnowsRoutines known) (value target : Option Ty) :
    Links known (box value target) := by
  unfold box
  split_ifs
  · exact .pure ()
  · exact .jal (by decide) (h _ (by decide))
  · exact .jal (by decide) (h _ (by decide))
  · exact .pure ()

theorem comparison_links {k : Cond} {r₁ r₂ : Reg} {text : String} (h : Clean [r₁, r₂] text) :
    Links known (comparison k r₁ r₂ text) := by
  unfold comparison
  refine .fresh (fun isTrue => .fresh (fun done => ?_) fun done => ?_) fun isTrue => ?_
  · refine .bind (.branch h (.inl (.inr rfl))) fun _ => .bind (.li (by decide)) fun _ => ?_
    refine .bind (.j (.inr rfl)) fun _ => .bind (.label _) fun _ => ?_
    exact .bind (.li (by decide)) fun _ => .label _
  · exact .right fun _ => .right fun _ => .right fun _ => .right fun _ => .right fun _ => .label _
  · exact .right fun _ => .right fun _ => .right fun _ => .right fun _ => .left (.label _)

theorem floorDiv_links (h : KnowsRoutines known) : Links known floorDiv := by
  unfold floorDiv
  refine .fresh (fun done => ?_) fun done => ?_
  · refine .bind (.beqz (by decide) (.inl (h _ (by decide)))) fun _ => ?_
    refine .bind (.instr (by decide) (by simp [Instr.label?])) fun _ => ?_
    refine .bind (.instr (by decide) (by simp [Instr.label?])) fun _ => ?_
    refine .bind (.beqz (by decide) (.inr rfl)) fun _ => ?_
    refine .bind (.instr (by decide) (by simp [Instr.label?])) fun _ => ?_
    refine .bind (.branch (by decide) (.inr rfl)) fun _ => ?_
    exact .bind (.addi (by decide)) fun _ => .bind (.label _) fun _ => .mv (by decide)
  · exact .right fun _ => .right fun _ => .right fun _ => .right fun _ => .right fun _ =>
      .right fun _ => .right fun _ => .left (.label _)

theorem floorMod_links (h : KnowsRoutines known) : Links known floorMod := by
  unfold floorMod
  refine .fresh (fun done => ?_) fun done => ?_
  · refine .bind (.beqz (by decide) (.inl (h _ (by decide)))) fun _ => ?_
    refine .bind (.instr (by decide) (by simp [Instr.label?])) fun _ => ?_
    refine .bind (.beqz (by decide) (.inr rfl)) fun _ => ?_
    refine .bind (.instr (by decide) (by simp [Instr.label?])) fun _ => ?_
    refine .bind (.branch (by decide) (.inr rfl)) fun _ => ?_
    exact .bind (.add (by decide)) fun _ => .bind (.label _) fun _ => .mv (by decide)
  · exact .right fun _ => .right fun _ => .right fun _ => .right fun _ => .right fun _ =>
      .right fun _ => .left (.label _)

theorem literal_links {l : Lit} (hl : l.Valid) : Links known (literal l) := by
  cases l with
  | int n => exact .li (by decide)
  | bool b => exact .li (by decide)
  | none => exact .mv (by decide)
  | str s => exact .strConstant fun l => .la (by decide) (.inr rfl)

theorem asType_links (hroutines : KnowsRoutines known) {e : Expr} (he : e.Valid) {code : Emit Unit}
    (h : Links known code) (target : Option Ty) : Links known (asType e code target) := by
  unfold asType
  split
  · exact h
  · split
    · rw [Expr.Valid] at he
      exact .intConstant he fun l => .la (by decide) (.inr rfl)
    · exact .la_bool _ (by decide)
    · exact .bind h fun _ => box_links hroutines _ _

theorem operands_links {l r : Emit Unit} (hl : Links known l) (hr : Links known r) :
    Links known (operands l r) :=
  .bind hl fun _ => .bind (.push (by decide)) fun _ => .bind hr fun _ => .pop (by decide)

theorem runtimeCall_links {routine : String} (hroutine : known (txt routine)) {l r : Emit Unit}
    (hl : Links known l) (hr : Links known r) : Links known (runtimeCall routine l r) :=
  .bind hl fun _ => .bind (.push (by decide)) fun _ => .bind hr fun _ =>
    .bind (.push (by decide)) fun _ => .bind (.jal (by decide) hroutine) fun _ => .popDiscard 2

theorem concatOperand_links (hroutines : KnowsRoutines known) (result elem : Option Ty)
    {code : Emit Unit} (h : Links known code) : Links known (concatOperand result elem code) := by
  unfold concatOperand
  refine .bind h fun _ => .bind (.push (by decide)) fun _ => ?_
  split_ifs
  · exact .push (by decide)
  · exact .bind (.la (by decide) (hroutines _ (by decide))) fun _ => .push (by decide)
  · exact .bind (.la (by decide) (hroutines _ (by decide))) fun _ => .push (by decide)

theorem concat_links (hroutines : KnowsRoutines known) (result left right : Option Ty)
    {l r : Emit Unit} (hl : Links known l) (hr : Links known r) :
    Links known (concat result left right l r) :=
  .bind (concatOperand_links hroutines _ _ hl) fun _ =>
    .bind (concatOperand_links hroutines _ _ hr) fun _ =>
      .bind (.jal (by decide) (hroutines _ (by decide))) fun _ => .popDiscard 4

/-- The code of `and` and `or`. -/
theorem shortCut_links {l r : Emit Unit} {stem : String} {jump : Label → Emit Unit}
    (hl : Links known l) (hr : Links known r)
    (hjump : ∀ done, Links (fun l' => known l' ∨ l' = done) (jump done)) :
    Links known (do
      let done ← fresh stem
      l
      jump done
      r
      label done) := by
  refine .fresh (fun done => ?_) fun done => ?_
  · exact .bind hl.weaken fun _ => .bind (hjump done) fun _ => .bind hr.weaken fun _ => .label _
  · exact .right fun _ => .right fun _ => .right fun _ => .label _

theorem binary_links (hroutines : KnowsRoutines known) (op : BinOp) (result left right : Option Ty)
    {l r : Emit Unit} (hl : Links known l) (hr : Links known r) :
    Links known (binary op result left right l r) := by
  have hops := operands_links hl hr
  have hop : ∀ o, Links known (instr (.op o .a0 .t0 .a0)) := fun o =>
    .instr (show Clean [.a0, .t0, .a0] _ by decide) (by simp [Instr.label?])
  cases op <;> simp only [binary]
  case and => exact shortCut_links hl hr fun done => .beqz (by decide) (.inr rfl)
  case or =>
    exact shortCut_links hl hr fun done =>
      .instr (show Clean [.a0] _ by decide) (by simp [Instr.label?])
  case add =>
    split_ifs
    · exact runtimeCall_links (hroutines _ (by decide)) hl hr
    · exact .bind hops fun _ => .add (by decide)
    · exact concat_links hroutines _ _ _ hl hr
  case sub | mul => exact .bind hops fun _ => hop _
  case floorDiv => exact .bind hops fun _ => floorDiv_links hroutines
  case mod => exact .bind hops fun _ => floorMod_links hroutines
  case eq | ne =>
    split_ifs
    · exact runtimeCall_links (hroutines _ (by decide)) hl hr
    · exact .bind hops fun _ => comparison_links (by decide)
  all_goals exact .bind hops fun _ => comparison_links (by decide)

theorem elementAddress_links (hroutines : KnowsRoutines known) {seq i : Emit Unit}
    (hseq : Links known seq) (hi : Links known i) : Links known (elementAddress seq i) := by
  unfold elementAddress
  refine .bind (operands_links hseq hi) fun _ => ?_
  refine .bind (.beqz (by decide) (hroutines _ (by decide))) fun _ => ?_
  refine .bind (.lw (by decide)) fun _ => ?_
  refine .bind (.branch (by decide) (hroutines _ (by decide))) fun _ => ?_
  refine .bind (.branch (by decide) (hroutines _ (by decide))) fun _ => ?_
  exact .bind (.slli (by decide)) fun _ => .add (by decide)

theorem construct_links (hroutines : KnowsRoutines known) (c : Context) {layout : ClassLayout}
    {o : Int} (hinit : layout.methodOffset (txt "__init__") = .ok o)
    (hlabel : known layout.prototypeLabel) (hname : newline ∉ layout.name) :
    Links known (construct c layout) := by
  unfold construct
  refine .bind (.la (by decide) hlabel) fun _ => ?_
  refine .bind (.instrOf (by decide) hname ?_) fun _ => ?_
  · simpa [Instr.label?] using hroutines _ (by decide)
  refine .bind (.push (by decide)) fun _ => .bind (pushStaticLink_links c 0) fun _ => ?_
  refine .bind (.push (by decide)) fun _ => .bind (.lw (by decide)) fun _ => ?_
  refine .ofExcept hinit (.bind (.lw (by decide)) fun _ => ?_)
  refine .bind (.instr (by decide) (by simp [Instr.label?])) fun _ => ?_
  exact .bind (.popDiscard 2) fun _ => .pop (by decide)

theorem callLabel_links {l : Label} {x : Name} (hl : known l) (hx : newline ∉ x) (n : Nat) :
    Links known (callLabel l x n) :=
  .bind (.instrOf (show Clean [] _ by decide) hx (by simpa [Instr.label?] using hl)) fun _ =>
    .popDiscard _

end Codegen

theorem Typing.method?_eq_some {t : Typing.Context} {o : Ty} {x : Name} {f : FuncTy}
    (h : Typing.method? t o x = some f) : ∃ cls, t.classOf? o = some cls ∧
      t.member? cls x = some (.func f) ∧ ∃ self params, f.params = self :: params := by
  simp only [Typing.method?, Option.bind_eq_bind, Option.bind_eq_some_iff] at h
  obtain ⟨cls, hcls, e, he, g, hg, hempty⟩ := h
  split_ifs at hempty with hnil
  obtain rfl := Option.some.inj hempty
  refine ⟨cls, hcls, ?_, ?_⟩
  · cases e with
    | func f => exact he.trans (congrArg (some ∘ Entry.func) (Option.some.inj hg))
    | value | cls => cases hg
  · cases hparams : g.params with
    | nil => simp [hparams] at hnil
    | cons self params => exact ⟨self, params, rfl⟩

/-! ### Expressions -/

section
variable (hc : c.Serves t known)
include hc

mutual

/-- A typed expression has code, and it can be linked. -/
theorem Expr.Typed.links : ∀ {e : Expr}, e.Typed t → e.Valid → Links known (e.gen c)
  | .lit l, _, hv => by
    simp only [Expr.Valid] at hv
    simp only [Expr.gen]
    exact literal_links hv
  | .name id, h, hv => by
    simp only [Expr.Typed, Expr.Valid] at h hv
    obtain ⟨ty, -, hget⟩ := h
    simp only [Expr.gen]
    exact loadVariable_links hv.newline (hc.globalVar _ ty hv hget)
  | .unary _ op e, h, hv => by
    simp only [Expr.Typed, Expr.Valid] at h hv
    simp only [Expr.gen]
    refine .bind (Expr.Typed.links h.1 hv) fun _ => ?_
    cases op <;> exact .instr (by decide) (by simp [Instr.label?])
  | .binary _ l op r, h, hv => by
    simp only [Expr.Typed, Expr.Valid] at h hv
    simp only [Expr.gen]
    exact binary_links hc.routines _ _ _ _ (Expr.Typed.links h.1 hv.1)
      (Expr.Typed.links h.2.1 hv.2)
  | .cond m test yes no, h, hv => by
    simp only [Expr.Typed, Expr.Valid] at h hv
    have hyes := asType_links hc.routines hv.2.1 (Expr.Typed.links h.2.2.1 hv.2.1) m.type?
    have hno := asType_links hc.routines hv.2.2 (Expr.Typed.links h.2.2.2.1 hv.2.2) m.type?
    simp only [Expr.gen]
    refine .fresh (fun otherwise => .fresh (fun done => ?_) fun done => ?_) fun otherwise => ?_
    · refine .bind (Expr.Typed.links h.1 hv.1).weaken.weaken fun _ => ?_
      refine .bind (.beqz (by decide) (.inl (.inr rfl))) fun _ => ?_
      refine .bind hyes.weaken.weaken fun _ => .bind (.j (.inr rfl)) fun _ => ?_
      exact .bind (.label _) fun _ => .bind hno.weaken.weaken fun _ => .label _
    · exact .right fun _ => .right fun _ => .right fun _ => .right fun _ => .right fun _ =>
        .right fun _ => .label _
    · exact .right fun _ => .right fun _ => .right fun _ => .right fun _ => .right fun _ =>
        .left (.label _)
  | .list m elems, h, hv => by
    simp only [Expr.Typed, Expr.Valid] at h hv
    simp only [Expr.gen]
    refine .bind (Expr.AllTyped.links h.1 hv _) fun _ => .bind (.li (by decide)) fun _ => ?_
    refine .bind (.push (by decide)) fun _ => ?_
    exact .bind (.jal (by decide) (hc.routines _ (by decide))) fun _ => .popDiscard _
  | .index _ seq i, h, hv => by
    simp only [Expr.Typed, Expr.Valid] at h hv
    have hseq := Expr.Typed.links h.1 hv.1
    have hi := Expr.Typed.links h.2.1 hv.2
    simp only [Expr.gen]
    split
    · exact runtimeCall_links (hc.routines _ (by decide)) hseq hi
    · exact .bind (elementAddress_links hc.routines hseq hi) fun _ => .lw (by decide)
  | .member _ object id, h, hv => by
    simp only [Expr.Typed, Expr.Valid] at h hv
    obtain ⟨hobject, o, cls, ty, ho, hcls, hmember, -⟩ := h
    obtain ⟨layout, hlayout, -, hattr, -⟩ := hc.layout o cls hcls
    obtain ⟨offset, hoffset⟩ := hattr _ _ hmember
    simp only [Expr.gen]
    refine .bind (Expr.Typed.links hobject hv.1) fun _ => ?_
    refine .bind (.beqz (by decide) (hc.routines _ (by decide))) fun _ => ?_
    refine .ofExcept (ho ▸ hlayout) (.ofExcept hoffset ?_)
    exact .instrOf (show Clean [.a0, .a0] _ by decide) hv.2.newline (by simp [Instr.label?])
  | .call _ id args, h, hv => by
    simp only [Expr.Typed, Expr.Valid] at h hv
    obtain ⟨hargs, entry, params, result, hcallee, hfit, -⟩ := h
    simp only [Expr.gen]
    cases hc.callee _ _ _ _ hv.1 hcallee with
    | func hfound hty hparams hlabel hname =>
      rw [hfound]
      refine .bind (pushStaticLink_links c _) fun _ => .need hty ?_
      exact .bind (Expr.AllTyped.argsLinks hargs hv.2 (hparams ▸ hfit)) fun _ =>
        callLabel_links hlabel hname _
    | constructor hnone hlayout hinit hlabel hname =>
      rw [hnone, hlayout]
      exact construct_links hc.routines c hinit hlabel hname
    | builtin hnone hlayout hl hty hparams hlabel =>
      rw [hnone, hlayout]
      refine .need hl (.bind (pushStaticLink_links c _) fun _ => .need hty ?_)
      exact .bind (Expr.AllTyped.argsLinks hargs hv.2 (hparams ▸ hfit)) fun _ =>
        callLabel_links hlabel hv.1.newline _
  | .methodCall _ _ object id args, h, hv => by
    simp only [Expr.Typed, Expr.Valid] at h hv
    obtain ⟨hobject, hargs, o, f, ho, hmethod, hfit, -⟩ := h
    obtain ⟨cls, hcls, hmember, self, params, hparams⟩ := Typing.method?_eq_some hmethod
    obtain ⟨layout, hlayout, hname, -, hoffset⟩ := hc.layout o cls hcls
    obtain ⟨offset, hoffset⟩ := hoffset _ _ hmember
    have hfunc : (c.globals.member? layout.name id.name).bind Entry.func? = some f := by
      rw [hc.globals, hname]
      exact congrArg (Option.bind · Entry.func?) hmember
    simp only [Expr.gen]
    refine .ofExcept (ho ▸ hlayout) (.need hfunc (.bind (pushStaticLink_links c 0) fun _ => ?_))
    refine .need (congrArg List.head? hparams) ?_
    refine .bind (asType_links hc.routines hv.1 (Expr.Typed.links hobject hv.1) _) fun _ => ?_
    refine .bind (.push (by decide)) fun _ => ?_
    refine .bind (Expr.AllTyped.argsLinks hargs hv.2.2 hfit) fun _ => ?_
    refine .bind (.lw (by decide)) fun _ => ?_
    refine .bind (.beqz (by decide) (hc.routines _ (by decide))) fun _ => ?_
    refine .bind (.lw (by decide)) fun _ => .ofExcept hoffset ?_
    refine .bind (.instrOf (show Clean [.a1, .a1] _ by decide) hv.2.1.newline
      (by simp [Instr.label?])) fun _ => ?_
    exact .bind (.instr (by decide) (by simp [Instr.label?])) fun _ => .popDiscard _

/-- The elements of a list display. -/
theorem Expr.AllTyped.links : ∀ {es : List Expr}, Expr.AllTyped t es → Expr.AllValid es →
    ∀ elem : Option Ty, Links known (Expr.genElems c elem es)
  | [], _, _, elem => by
    simp only [Expr.genElems]
    exact .pure ()
  | e :: es, h, hv, elem => by
    simp only [Expr.AllTyped, Expr.AllValid] at h hv
    simp only [Expr.genElems]
    refine .bind (asType_links hc.routines hv.1 (Expr.Typed.links h.1 hv.1) _) fun _ => ?_
    exact .bind (.push (by decide)) fun _ => Expr.AllTyped.links h.2 hv.2 elem

/-- Arguments that fit their parameters. -/
theorem Expr.AllTyped.argsLinks : ∀ {es : List Expr} {params : List Ty}, Expr.AllTyped t es →
    Expr.AllValid es → Typing.Fit t.hierarchy params es → Links known (Expr.genArgs c params es)
  | [], params, _, _, _ => by
    simp only [Expr.genArgs]
    exact .pure ()
  | e :: es, params, h, hv, hfit => by
    simp only [Expr.AllTyped, Expr.AllValid] at h hv
    cases hfit with
    | cons _ hfit =>
      simp only [Expr.genArgs]
      refine .bind (asType_links hc.routines hv.1 (Expr.Typed.links h.1 hv.1) _) fun _ => ?_
      exact .bind (.push (by decide)) fun _ => Expr.AllTyped.argsLinks h.2 hv.2 hfit

end

end

/-! ### Statements -/

namespace Codegen

section
variable (hc : c.Serves t known)
include hc

theorem store_links {e : Expr} (h : e.Typed t) (hv : e.Valid) (htarget : e.isTarget = true) :
    Links known (store c e) := by
  cases e with
  | name id =>
    simp only [Expr.Typed, Expr.Valid] at h hv
    obtain ⟨ty, -, hget⟩ := h
    exact storeVariable_links hv.newline (hc.globalVar _ ty hv hget)
  | member m object id =>
    simp only [Expr.Typed, Expr.Valid] at h hv
    obtain ⟨hobject, o, cls, ty, ho, hcls, hmember, -⟩ := h
    obtain ⟨layout, hlayout, -, hattr, -⟩ := hc.layout o cls hcls
    obtain ⟨offset, hoffset⟩ := hattr _ _ hmember
    unfold store
    refine .bind (.push (by decide)) fun _ => .bind (hobject.links hc hv.1) fun _ => ?_
    refine .bind (.beqz (by decide) (hc.routines _ (by decide))) fun _ => ?_
    refine .bind (.pop (by decide)) fun _ => .ofExcept (ho ▸ hlayout) (.ofExcept hoffset ?_)
    exact .instrOf (show Clean [.t0, .a0] _ by decide) hv.2.newline (by simp [Instr.label?])
  | index m seq i =>
    simp only [Expr.Typed, Expr.Valid] at h hv
    unfold store
    refine .bind (.push (by decide)) fun _ => ?_
    refine .bind (elementAddress_links hc.routines (h.1.links hc hv.1) (h.2.1.links hc hv.2)) ?_
    exact fun _ => .bind (.pop (by decide)) fun _ => .sw (by decide)
  | _ => cases htarget

theorem storeAll_links (value : Option Ty) : ∀ {es : List Expr}, (∀ e ∈ es, e.Typed t) →
    Expr.AllValid es → (∀ e ∈ es, e.isTarget = true) → Links known (storeAll c value es)
  | [], _, _, _ => .pure ()
  | e :: es, h, hv, htarget => by
    simp only [Expr.AllValid, List.forall_mem_cons] at h hv htarget
    unfold storeAll
    refine .bind (.lw (by decide)) fun _ => .bind (box_links hc.routines _ _) fun _ => ?_
    exact .bind (store_links hc h.1 hv.1 htarget.1) fun _ =>
      storeAll_links value h.2 hv.2 htarget.2

theorem assign_links {targets : List Expr} {value : Expr} (h : ∀ e ∈ targets, e.Typed t)
    (hv : Expr.AllValid targets) (htarget : ∀ e ∈ targets, e.isTarget = true)
    (hvalue : value.Typed t) (hvv : value.Valid) : Links known (assign c targets value) := by
  unfold assign
  refine .bind (hvalue.links hc hvv) fun _ => ?_
  split
  · rename_i target
    simp only [Expr.AllValid, List.forall_mem_singleton, and_true] at h hv htarget
    exact .bind (box_links hc.routines _ _) fun _ => store_links hc h hv htarget
  · refine .bind (.push (by decide)) fun _ => ?_
    exact .bind (storeAll_links hc _ h hv htarget) fun _ => .popDiscard 1

theorem forLoop_links (slots : Int × Int) {id : Ident} {ty : Ty} (hid : ValidName id.name)
    (hget : t.env.get? id.name = some (.value ty)) (iterableType : Option Ty)
    {iterable body : Emit Unit} (hiterable : Links known iterable) (hbody : Links known body) :
    Links known (forLoop c slots id iterableType iterable body) := by
  have hnext : Links known (nextElement iterableType) := by
    unfold nextElement
    split
    · refine .bind (.push (by decide)) fun _ => .bind (.push (by decide)) fun _ => ?_
      exact .bind (.jal (by decide) (hc.routines _ (by decide))) fun _ => .popDiscard 2
    · exact .bind (.slli (by decide)) fun _ => .bind (.add (by decide)) fun _ => .lw (by decide)
  have hstore : Links known (storeVariable c id.name) :=
    storeVariable_links hid.newline (hc.globalVar _ ty hid hget)
  unfold forLoop
  refine .fresh (fun again => .fresh (fun exit => ?_) fun exit => ?_) fun again => ?_
  · refine .bind hiterable.weaken.weaken fun _ => ?_
    refine .bind (.beqz (by decide) (.inl (.inl (hc.routines _ (by decide))))) fun _ => ?_
    refine .bind (.sw (by decide)) fun _ => .bind (.sw (by decide)) fun _ => ?_
    refine .bind (.label _) fun _ => .bind (.lw (by decide)) fun _ => ?_
    refine .bind (.lw (by decide)) fun _ => .bind (.lw (by decide)) fun _ => ?_
    refine .bind (.branch (by decide) (.inr rfl)) fun _ => .bind hnext.weaken.weaken fun _ => ?_
    refine .bind (.lw (by decide)) fun _ => .bind (.addi (by decide)) fun _ => ?_
    refine .bind (.sw (by decide)) fun _ => ?_
    refine .bind (box_links hc.routines _ _).weaken.weaken fun _ => ?_
    refine .bind hstore.weaken.weaken fun _ => .bind hbody.weaken.weaken fun _ => ?_
    exact .bind (.j (.inl (.inr rfl))) fun _ => .label _
  · iterate 17 refine .right fun _ => ?_
    exact .label _
  · iterate 5 refine .right fun _ => ?_
    exact .left (.label _)

/-- The variables of a function are initialised if they have types and words in its frame. -/
theorem initLocals_links {table : Bindings Entry} : ∀ {ds : List LocalDecl},
    (∀ d, .var d ∈ ds → (∃ ty, table.get? d.name = some (.value ty)) ∧
      (∃ o, c.frame.offset? d.name = some o) ∧ d.Valid) → Links known (initLocals c table ds)
  | [], _ => .pure ()
  | .var d :: ds, h => by
    obtain ⟨⟨ty, hty⟩, ⟨o, ho⟩, hvalid⟩ := h d (List.mem_cons_self ..)
    have hvalue : (table.lookup d.name |>.bind Entry.value?) = some ty :=
      congrArg (Option.bind · Entry.value?) hty
    unfold initLocals
    refine .need hvalue (.need ho ?_)
    have hlit : (Expr.lit d.value).Valid := by simpa only [Expr.Valid] using hvalid.2
    refine .bind (asType_links hc.routines hlit (literal_links hvalid.2) _) fun _ => ?_
    refine .bind (.instrOf (show Clean [.a0, .fp] _ by decide) (ValidName.newline hvalid.1)
      (by simp [Instr.label?])) fun _ => ?_
    exact initLocals_links fun d hd => h d (List.mem_cons_of_mem _ hd)
  | .global _ _ :: ds, h | .nonlocal _ _ :: ds, h | .func _ :: ds, h => by
    unfold initLocals
    exact initLocals_links fun d hd => h d (List.mem_cons_of_mem _ hd)

end

theorem conditional_links {test yes : Emit Unit} {no? : Option (Emit Unit)}
    (htest : Links known test) (hyes : Links known yes)
    (hno : ∀ no, no? = some no → Links known no) : Links known (conditional test yes no?) := by
  unfold conditional
  refine .bind htest fun _ => ?_
  cases no? with
  | none =>
    refine .fresh (fun done => ?_) fun done => ?_
    · refine .bind (.beqz (by decide) (.inr rfl)) fun _ => ?_
      exact .bind hyes.weaken fun _ => .label _
    · exact .right fun _ => .right fun _ => .label _
  | some no =>
    refine .fresh (fun done => .fresh (fun otherwise => ?_) fun otherwise => ?_) fun done => ?_
    · refine .bind (.beqz (by decide) (.inr rfl)) fun _ => ?_
      refine .bind hyes.weaken.weaken fun _ => .bind (.j (.inl (.inr rfl))) fun _ => ?_
      exact .bind (.label _) fun _ => .bind (hno no rfl).weaken.weaken fun _ => .label _
    · exact .right fun _ => .right fun _ => .right fun _ => .left (.label _)
    · exact .right fun _ => .right fun _ => .right fun _ => .right fun _ => .right fun _ =>
        .right fun _ => .label _

theorem whileLoop_links {test body : Emit Unit} (htest : Links known test)
    (hbody : Links known body) : Links known (whileLoop test body) := by
  unfold whileLoop
  refine .fresh (fun again => .fresh (fun exit => ?_) fun exit => ?_) fun again => ?_
  · refine .bind (.label _) fun _ => .bind htest.weaken.weaken fun _ => ?_
    refine .bind (.beqz (by decide) (.inr rfl)) fun _ => .bind hbody.weaken.weaken fun _ => ?_
    exact .bind (.j (.inl (.inr rfl))) fun _ => .label _
  · exact .right fun _ => .right fun _ => .right fun _ => .right fun _ => .right fun _ => .label _
  · exact .right fun _ => .left (.label _)

end Codegen

mutual

/-- A typed statement has code, and it can be linked. `k` leaves words for its `for` statements. -/
theorem Stmt.Typed.links (hc : c.Serves t known) : ∀ {s : Stmt} {k : Nat}, s.Typed t →
    s.Valid → k + s.forCount ≤ c.frame.fors → (t.top = false → known c.epilogue) →
    Links known (s.gen c k)
  | .expr _ e, k, h, hv, hk, hret => by
    simp only [Stmt.Typed, Stmt.Valid] at h hv
    simp only [Stmt.gen]
    exact h.links hc hv
  | .assign _ targets value, k, h, hv, hk, hret => by
    simp only [Stmt.Typed, Stmt.Valid] at h hv
    obtain ⟨hvalue, ty, -, htargets, -⟩ := h
    simp only [Stmt.gen]
    exact assign_links hc (fun e he => (htargets e he).1) hv.1 hv.2.1 hvalue hv.2.2
  | .ite _ test yes no, k, h, hv, hk, hret => by
    simp only [Stmt.Typed, Stmt.Valid] at h hv
    simp only [Stmt.forCount] at hk
    simp only [Stmt.gen]
    refine conditional_links (h.1.links hc hv.1)
      (Stmt.AllTyped.links hc h.2.2.1 hv.2.1 (by omega) hret) fun code hcode => ?_
    split at hcode
    · cases hcode
    · cases hcode
      exact Stmt.AllTyped.links hc h.2.2.2 hv.2.2 (by omega) hret
  | .loop _ test body, k, h, hv, hk, hret => by
    simp only [Stmt.Typed, Stmt.Valid] at h hv
    simp only [Stmt.forCount] at hk
    simp only [Stmt.gen]
    exact whileLoop_links (h.1.links hc hv.1) (Stmt.AllTyped.links hc h.2.2 hv.2 hk hret)
  | .each _ id iterable body, k, h, hv, hk, hret => by
    simp only [Stmt.Typed, Stmt.Valid] at h hv
    simp only [Stmt.forCount] at hk
    obtain ⟨hiterable, hbody, ty, elem, var, -, -, -, hget, -⟩ := h
    have hslots : ∃ slots, c.frame.forSlots? k = some slots :=
      ⟨_, if_pos (by omega)⟩
    obtain ⟨slots, hslots⟩ := hslots
    simp only [Stmt.gen]
    exact .need hslots (forLoop_links hc slots hv.1 hget _ (hiterable.links hc hv.2.1)
      (Stmt.AllTyped.links hc hbody hv.2.2 (by omega) hret))
  | .ret _ none, k, h, _, _, hret => by
    simp only [Stmt.Typed] at h
    simp only [Stmt.gen]
    exact .bind (.mv (by decide)) fun _ => .j (hret h.1)
  | .ret _ (some e), k, h, hv, _, hret => by
    simp only [Stmt.Typed, Stmt.Valid] at h hv
    obtain ⟨he, ty, -, hreturn⟩ := h
    simp only [Stmt.gen]
    exact .bind (asType_links hc.routines hv (he.links hc hv) _) fun _ => .j (hret hreturn.1)

theorem Stmt.AllTyped.links (hc : c.Serves t known) : ∀ {ss : List Stmt} {k : Nat},
    Stmt.AllTyped t ss → Stmt.AllValid ss → k + Stmt.forCounts ss ≤ c.frame.fors →
    (t.top = false → known c.epilogue) → Links known (Stmt.genAll c k ss)
  | [], k, _, _, _, _ => by
    simp only [Stmt.genAll]
    exact .pure ()
  | s :: ss, k, h, hv, hk, hret => by
    simp only [Stmt.AllTyped, Stmt.AllValid] at h hv
    simp only [Stmt.forCounts] at hk
    simp only [Stmt.genAll]
    exact .bind (Stmt.Typed.links hc h.1 hv.1 (by omega) hret) fun _ =>
      Stmt.AllTyped.links hc h.2 hv.2 (by omega) hret

end

end ChocoRv
