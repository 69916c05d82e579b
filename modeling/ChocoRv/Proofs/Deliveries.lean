import ChocoRv.Proofs.ControlFlow
import ChocoRv.Proofs.Conversions

/-!
# Deliveries

The code of every part of a program that delivers values, from the first word to the store, push or
jump that takes it to its place (`Expr.SiteCode`, `Stmt.SiteCode`, `InitsCode`). Between the value
and its place stands what converts it and nothing else. In typed code the types of a value and of
its place always go together, so that every site has the code that is described here.
-/

namespace ChocoRv

open Asm Codegen Emit

/-! ### Expressions -/

/-- The code of a site: the branches of a conditional expression, the elements of a list display,
the arguments of a call and the receiver of a method, each as its place needs it, and the operands
of a concatenation with the routines for their elements. A new object goes to its constructor as it
is. -/
inductive Expr.SiteCode (c : Context) (pool : Pool) : Expr → List Item → Prop
  | cond {m : Mark} {test yes no : Expr} {tested yesCode noCode : List Item}
      (otherwise done : Label) (htest : (test.gen c).Produces tested)
      (hyes : yes.Delivered c pool m.type? yesCode) (hno : no.Delivered c pool m.type? noCode) :
    SiteCode c pool (.cond m test yes no)
      (tested ++ branchCode yesCode noCode otherwise done [] [] [] [])
  | list {m : Mark} {elems : List Expr} {elem : Ty} {pushed : List (List Item × Bytes)}
      (hm : elems ≠ [] → m.type? = some (.list elem))
      (helems : Expr.Passed c pool (List.replicate elems.length elem) elems pushed) :
    SiteCode c pool (.list m elems) (argsCode pushed ++
      [.instr (.li .a0 (int32 elems.length)) (txt "list length")] ++ pushCode .a0 [] ++
      [.instr (.jal (txt "conslist")) [],
       .instr (.opImm .addi .sp .sp (wordSize * (elems.length + 1) : Nat)) []])
  | func {m : Mark} {id : Ident} {args : List Expr} {parent : Frame} {ty : FuncTy} {k : CallParts}
      (h : Frame.resolveFunc? id.name c.chain = some parent)
      (hty : c.funcTy? parent id.name = some ty) (hlink : c.HasLink parent.depth k.link)
      (hargs : Expr.Passed c pool ty.params args k.args)
      (htransfer : k.transfer = [.instr (.jal (parent.childLabel id.name))
        (txt "call " ++ parent.childName id.name)]) :
    SiteCode c pool (.call m id args) k.code
  | builtin {m : Mark} {id : Ident} {args : List Expr} {l : Label} {ty : FuncTy} {k : CallParts}
      (h : Frame.resolveFunc? id.name c.chain = none)
      (hlayout : ClassLayout.find? c.layouts id.name = none)
      (hl : builtinFuncs.lookup id.name = some l)
      (hty : (c.globals.get? id.name).bind Entry.func? = some ty) (hlink : c.HasLink 0 k.link)
      (hargs : Expr.Passed c pool ty.params args k.args)
      (htransfer : k.transfer = [.instr (.jal l) (txt "call " ++ id.name)]) :
    SiteCode c pool (.call m id args) k.code
  | constructor {m : Mark} {id : Ident} {before after : List Item} {k : CallParts}
      (h : Frame.resolveFunc? id.name c.chain = none)
      (hk : (Expr.call m id []).CallCode c before k after) :
    SiteCode c pool (.call m id []) (before ++ k.code ++ after)
  | method {m m' : Mark} {object : Expr} {id : Ident} {args : List Expr} {layout : ClassLayout}
      {ty : FuncTy} {o : Int} {k : CallParts} (hlayout : c.layoutOf object.type? = .ok layout)
      (hty : (c.globals.member? layout.name id.name).bind Entry.func? = some ty)
      (ho : layout.methodOffset id.name = .ok o) (hlink : c.HasLink 0 k.link)
      (hargs : Expr.Passed c pool ty.params (object :: args) k.args)
      (htransfer : k.transfer =
        [.instr (.load .lw .a0 .sp (wordSize * args.length : Nat)) (txt "self"),
          .instr (.branchZero .beqz .a0 errorNone) []] ++ dispatchCode o id.name) :
    SiteCode c pool (.methodCall m m' object id args) k.code
  | concat {m : Mark} {left right : Expr} {a b : Ty} {one two : List Item}
      (ha : left.type? = some a) (hb : right.type? = some b)
      (hraw : ∀ r, m.type?.bind Ty.elem? = some r → r.isUnboxed = true →
        (a = .emptyList ∨ a = .list r) ∧ (b = .emptyList ∨ b = .list r))
      (hone : OperandCode (left.gen c) a.elem? (m.type?.bind Ty.elem?) one)
      (htwo : OperandCode (right.gen c) b.elem? (m.type?.bind Ty.elem?) two) :
    SiteCode c pool (.binary m left .add right) (one ++ two ++
      [.instr (.jal (txt "concat")) [], .instr (.opImm .addi .sp .sp (wordSize * 4 : Nat)) []])

/-- What the deliveries of a body need of its contexts. -/
structure Codegen.Context.Delivers (c : Context) (t : Typing.Context) (known : Label → Prop) :
    Prop where
  serves : c.Serves t known
  bare : c.BareConstructors t
  tree : t.hierarchy.Tree
  receiver : ∀ o x f, Typing.method? t o x = some f →
    ∃ self, f.params.head? = some self ∧ o.GoesInto self

section
variable {c : Context} {t : Typing.Context} {known : Label → Prop} {s : EmitState}

theorem Emit.ofExcept_ok {α : Type} (a : α) : ofExcept (.ok a) = (pure a : Emit α) := rfl

theorem Expr.genArgs_passed (htree : t.hierarchy.Tree) {ts : List Ty} {es : List Expr}
    (hes : Expr.AllTyped t es) (hfit : Typing.Fit t.hierarchy ts es) (s : EmitState) :
    All (Expr.genArgs c ts es) s fun _ code s' => ∃ args,
      Expr.Passed c s'.pool ts es args ∧ code = argsCode args := by
  induction hfit generalizing s with
  | nil =>
    rw [Expr.genArgs, all_pure]
    exact ⟨[], .nil, rfl⟩
  | @cons p e ts es he hfit ih =>
    simp only [Expr.AllTyped] at hes
    obtain ⟨v, hv, hcompat⟩ := he
    simp only [Expr.genArgs, all_bind, all_push]
    intro _ own s₁ hown _ more s₂ hmore
    obtain ⟨args, hargs, rfl⟩ := ih hes.2 s₁ _ _ _ hmore
    have hdelivered := asType_delivered hes.1 hv rfl
      (htree.widens_of_isCompatible hcompat).toGoesInto _ _ _ hown
    exact ⟨(own, txt "argument") :: args, .cons (hdelivered.within (Keeps.within hmore)) hargs,
      by rw [argsCode_cons]⟩

theorem Expr.genElems_passed {elem : Ty} : ∀ {es : List Expr}, Expr.AllTyped t es →
    (∀ e ∈ es, ∃ v, e.type? = some v ∧ v.GoesInto elem) → ∀ s : EmitState,
    All (Expr.genElems c (some elem) es) s fun _ code s' => ∃ pushed,
      Expr.Passed c s'.pool (List.replicate es.length elem) es pushed ∧ code = argsCode pushed
  | [], _, _, s => by
    rw [Expr.genElems, all_pure]
    exact ⟨[], .nil, rfl⟩
  | e :: es, hes, hgoes, s => by
    simp only [Expr.AllTyped] at hes
    obtain ⟨⟨v, hv, he⟩, hrest⟩ := List.forall_mem_cons.1 hgoes
    simp only [Expr.genElems, all_bind, all_push]
    intro _ own s₁ hown _ more s₂ hmore
    obtain ⟨pushed, hpushed, rfl⟩ := genElems_passed hes.2 hrest s₁ _ _ _ hmore
    have hdelivered := asType_delivered hes.1 hv rfl he _ _ _ hown
    exact ⟨(own, txt "list element") :: pushed,
      .cons (hdelivered.within (Keeps.within hmore)) hpushed, by rw [argsCode_cons]⟩

theorem Expr.cond_siteCode (htree : t.hierarchy.Tree) {m : Mark} {test yes no : Expr}
    (h : (Expr.cond m test yes no).Typed t) : All ((Expr.cond m test yes no).gen c) s
      fun _ own s' => (Expr.cond m test yes no).SiteCode c s'.pool own := by
  simp only [Expr.Typed] at h
  obtain ⟨-, -, hyes, hno, a, b, ha, hb, hm⟩ := h
  obtain ⟨hleft, hright⟩ := htree.widens_commonAncestor a b
  simp only [Expr.gen, beqz, Emit.j, Emit.label, instr, all_bind, all_items, all_fresh]
  intro _ tested s₁ htested _ yesCode s₂ hyesCode _ noCode s₃ hnoCode
  have hdelivered := asType_delivered hyes ha hm hleft.toGoesInto _ _ _ hyesCode
  have hsite := Expr.SiteCode.cond (freshLabel (txt "ifexpr_else") (s.fresh + 1))
    (freshLabel (txt "ifexpr_end") (s.fresh + 1 + 1)) ⟨_, s₁, htested⟩
    (hdelivered.within (Keeps.within hnoCode))
    (asType_delivered hno hb hm hright.toGoesInto _ _ _ hnoCode)
  simpa [branchCode] using hsite

theorem Expr.list_siteCode (htree : t.hierarchy.Tree) {m : Mark} {es : List Expr}
    (h : (Expr.list m es).Typed t) : All ((Expr.list m es).gen c) s
      fun _ own s' => (Expr.list m es).SiteCode c s'.pool own := by
  simp only [Expr.Typed] at h
  obtain ⟨hes, ts, htypes, hm⟩ := h
  obtain ⟨elem, hdisplay, hgoes⟩ : ∃ elem, (es ≠ [] → m.type? = some (.list elem)) ∧
      ∀ e ∈ es, ∃ v, e.type? = some v ∧ v.GoesInto elem := by
    cases es with
    | nil => exact ⟨.int, nofun, by simp⟩
    | cons e es =>
      have hne : ts ≠ [] := by
        rintro rfl
        cases htypes
      obtain ⟨elem, hdisplay, hgoes⟩ := htree.goesInto_display hne
      refine ⟨elem, fun _ => hm.trans (congrArg some hdisplay), fun e' he' => ?_⟩
      obtain ⟨v, hv⟩ := (Expr.allTyped_iff.1 hes e' he').hasType
      have hmem : some v ∈ ts.map some := htypes ▸ List.mem_map.2 ⟨e', he', hv⟩
      exact ⟨v, hv, hgoes v (by simpa using hmem)⟩
  have hpushed : All (Expr.genElems c (m.type?.bind Ty.elem?) es) s fun _ code s' => ∃ pushed,
      Expr.Passed c s'.pool (List.replicate es.length elem) es pushed ∧
        code = argsCode pushed := by
    by_cases hne : es = []
    · subst hne
      rw [Expr.genElems, all_pure]
      exact ⟨[], .nil, rfl⟩
    · rw [hdisplay hne]
      exact Expr.genElems_passed hes hgoes s
  simp only [Expr.gen, li, push, Emit.jal, popDiscard, addi, sw, instr, all_bind, all_items]
  intro _ code s₁ hcode
  obtain ⟨pushed, hpassed, rfl⟩ := hpushed _ _ _ hcode
  have hsite := Expr.SiteCode.list hdisplay hpassed
  simpa [pushCode] using hsite

/-- The code of a call by name has the parts of a call. -/
theorem Expr.named_parts (htree : t.hierarchy.Tree) {ts : List Ty} {es : List Expr}
    (hes : Expr.AllTyped t es) (hfit : Typing.Fit t.hierarchy ts es) (depth : Nat) (l : Label)
    (x : Name) :
    All (pushStaticLink c depth >>= fun _ => Expr.genArgs c ts es >>= fun _ =>
      callLabel l x es.length) s fun _ own s' => ∃ k : CallParts, c.HasLink depth k.link ∧
        Expr.Passed c s'.pool ts es k.args ∧
        k.transfer = [.instr (.jal l) (txt "call " ++ x)] ∧ own = k.code := by
  simp only [callLabel, popDiscard, addi, instr, instrOf, all_bind, all_items]
  intro _ code s₁ hcode _ more s₂ hmore
  obtain ⟨link, hlink, rfl⟩ := pushStaticLink_code c depth _ _ _ hcode
  obtain ⟨args, hpassed, rfl⟩ := Expr.genArgs_passed htree hes hfit _ _ _ _ hmore
  refine ⟨⟨link, args, _⟩, hlink, hpassed, rfl, ?_⟩
  simp [CallParts.code, CallParts.release, hpassed.length_eq]

theorem Expr.call_siteCode (hc : c.Delivers t known) {m : Mark} {id : Ident} {args : List Expr}
    (h : (Expr.call m id args).Typed t) (hvalid : ValidName id.name) :
    All ((Expr.call m id args).gen c) s
      fun _ own s' => (Expr.call m id args).SiteCode c s'.pool own := by
  simp only [Expr.Typed] at h
  obtain ⟨hargs, entry, params, result, hcallee, hfit, -⟩ := h
  cases hc.serves.callee _ _ _ _ hvalid hcallee with
  | @func parent ty hfunc hty hparams =>
    simp only [Expr.gen, hfunc, hty, need_some, pure_bind, hparams]
    intro _ own s' hown
    obtain ⟨k, hlink, hpassed, htransfer, rfl⟩ :=
      Expr.named_parts hc.tree hargs hfit _ _ _ _ _ _ hown
    exact .func hfunc hty hlink (hparams ▸ hpassed) htransfer
  | constructor hnone hlayout =>
    obtain rfl := hc.bare _ _ _ _ _ hvalid hcallee hnone hlayout
    cases hfit
    simp only [Expr.gen, hnone, hlayout]
    intro _ own s' hown
    obtain ⟨before, k, after, hk, rfl⟩ : ∃ before k after,
        (Expr.call m id []).CallCode c before k after ∧ own = before ++ k.code ++ after :=
      construct_code hnone hlayout _ _ _ hown
    exact .constructor hnone hk
  | @builtin l ty hnone hlayout hl hty hparams =>
    simp only [Expr.gen, hnone, hlayout, hl, hty, need_some, pure_bind, hparams]
    intro _ own s' hown
    obtain ⟨k, hlink, hpassed, htransfer, rfl⟩ :=
      Expr.named_parts hc.tree hargs hfit _ _ _ _ _ _ hown
    exact .builtin hnone hlayout hl hty hlink (hparams ▸ hpassed) htransfer

theorem Expr.methodCall_siteCode (hc : c.Delivers t known) {m m' : Mark} {object : Expr}
    {id : Ident} {args : List Expr} (h : (Expr.methodCall m m' object id args).Typed t) :
    All ((Expr.methodCall m m' object id args).gen c) s
      fun _ own s' => (Expr.methodCall m m' object id args).SiteCode c s'.pool own := by
  simp only [Expr.Typed] at h
  obtain ⟨hobject, hargs, o, f, ho, hmethod, hfit, -⟩ := h
  obtain ⟨self, hself, hgoes⟩ := hc.receiver o _ f hmethod
  obtain ⟨cls, hcls, hmember, -⟩ := Typing.method?_eq_some hmethod
  obtain ⟨layout, hlayout, hname, -, -⟩ := hc.serves.layout o cls hcls
  have hmember' : (c.globals.member? layout.name id.name).bind Entry.func? = some f := by
    rw [hc.serves.globals, hname]
    exact congrArg (·.bind Entry.func?) hmember
  have hlayout' : c.layoutOf object.type? = .ok layout := ho ▸ hlayout
  have hparams : f.params = self :: f.params.tail := by
    cases hps : f.params with
    | nil =>
      rw [hps] at hself
      cases hself
    | cons p ps =>
      rw [hps] at hself
      cases hself
      rfl
  simp only [Expr.gen, hlayout', ofExcept_ok, pure_bind, hmember', need_some, hself, push,
    popDiscard, addi, sw, lw, beqz, instr, instrOf, all_bind, all_items, all_ofExcept]
  intro _ code s₁ hcode _ own s₂ hown _ more s₃ hmore offset hoffset
  obtain ⟨link, hlink, rfl⟩ := pushStaticLink_code c 0 _ _ _ hcode
  obtain ⟨as, hpassed, rfl⟩ := Expr.genArgs_passed hc.tree hargs hfit _ _ _ _ hmore
  have hdelivered := asType_delivered hobject ho rfl hgoes _ _ _ hown
  have hall : Expr.Passed c s₃.pool f.params (object :: args) ((own, txt "self") :: as) :=
    hparams ▸ .cons (hdelivered.within (Keeps.within hmore)) hpassed
  have hsite : (Expr.methodCall m m' object id args).SiteCode c s₃.pool _ :=
    .method (k := ⟨link, (own, txt "self") :: as, _⟩) hlayout' hmember' hoffset hlink hall rfl
  have hlength : as.length + 1 + 1 = args.length + 2 := congrArg (· + 2) hpassed.length_eq
  simpa [CallParts.code, CallParts.release, dispatchCode, pushCode, argsCode_cons, hlength]
    using hsite

theorem Typing.binaryType_concat {h : Hierarchy} {a b t : Ty} (ha : a.isListLike = true)
    (htype : binaryType h .add a b = (t, true)) :
    b.isListLike = true ∧ t.elem? = h.join? a.elem? b.elem? := by
  have hint : (a == .int) = false := by
    cases a with
    | cls | noneType => cases ha
    | emptyList | list => rfl
  have hstr : (a == .str) = false := by
    cases a with
    | cls | noneType => cases ha
    | emptyList | list => rfl
  rw [binaryType] at htype
  simp only [hint, hstr, Bool.false_and, Bool.false_eq_true, if_false, ha, Bool.true_and,
    Bool.false_or] at htype
  split_ifs at htype with hb hbint
  · refine ⟨hb, ?_⟩
    cases hjoin : h.join? a.elem? b.elem? with
    | none =>
      rw [hjoin] at htype
      cases htype
      rfl
    | some elem =>
      rw [hjoin] at htype
      cases htype
      rfl
  · cases htype
  · cases htype

theorem Expr.concat_siteCode (htree : t.hierarchy.Tree) {m : Mark} {left right : Expr}
    (h : (Expr.binary m left .add right).Typed t)
    (hsite : (Expr.binary m left .add right).isSite = true) :
    All ((Expr.binary m left .add right).gen c) s
      fun _ own s' => (Expr.binary m left .add right).SiteCode c s'.pool own := by
  simp only [Expr.Typed] at h
  obtain ⟨-, -, a, b, u, ha, hb, htype, hm⟩ := h
  have hlist : a.isListLike = true := by simpa [Expr.isSite, ha] using hsite
  obtain ⟨hlist', helem⟩ := Typing.binaryType_concat hlist htype
  have hstr : ¬ some a = some .str := by
    rintro ⟨⟩
    cases hlist
  have hint : ¬ some a = some .int := by
    rintro ⟨⟩
    cases hlist
  simp only [Expr.gen, Codegen.binary, ha, hb, if_neg hstr, if_neg hint, Codegen.concat, Emit.jal,
    popDiscard, addi, instr, all_bind, all_items, Option.bind_some]
  intro _ one s₁ hone _ two s₂ htwo
  refine (List.append_assoc one two _).symm ▸ Expr.SiteCode.concat ha hb (fun r hr hraw => ?_)
    (concatOperand_code _ _ _ _ _ _ _ hone) (concatOperand_code _ _ _ _ _ _ _ htwo)
  rw [hm, Option.bind_some, helem] at hr
  exact htree.raw_of_join? hlist hlist' hr hraw

/-- The code of a typed site delivers the values in it as their places need them. -/
theorem Expr.gen_siteCode (hc : c.Delivers t known) {e : Expr} (h : e.Typed t) (hv : e.Valid)
    (hsite : e.isSite = true) :
    All (e.gen c) s fun _ own s' => e.SiteCode c s'.pool own := by
  cases e with
  | cond m test yes no => exact Expr.cond_siteCode hc.tree h
  | list m elems => exact Expr.list_siteCode hc.tree h
  | call m id args =>
    simp only [Expr.Valid] at hv
    exact Expr.call_siteCode hc h hv.1
  | methodCall m m' object id args => exact Expr.methodCall_siteCode hc h
  | binary m l op r =>
    cases op with
    | add => exact Expr.concat_siteCode hc.tree h hsite
    | _ => cases hsite
  | lit | name | unary | index | member => cases hsite

end

/-! ### Statements -/

namespace Codegen

/-- Keeps the sequence in `a0` and its next index in the frame and looks for the end. -/
def loopCode (seq index : Int) (again exit : Label) : List Item :=
  [.instr (.branchZero .beqz .a0 errorNone) [],
   .instr (.store .sw .a0 .fp seq) (txt "for sequence"),
   .instr (.store .sw .zero .fp index) (txt "for index"), .label again [],
   .instr (.load .lw .t0 .fp seq) [], .instr (.load .lw .t1 .fp index) [],
   .instr (.load .lw .t2 .t0 valueOffset) (txt "length"), .instr (.branch .bge .t1 .t2 exit) []]

/-- Leaves the next element of a sequence in `a0`. -/
def elementCode (iterable : Option Ty) : List Item :=
  if iterable = some .str then
    pushCode .t0 [] ++ pushCode .t1 [] ++
      [.instr (.jal (txt "strindex")) [], .instr (.opImm .addi .sp .sp (wordSize * 2 : Nat)) []]
  else
    [.instr (.opImm .slli .t1 .t1 2) [], .instr (.op .add .t1 .t1 .t0) [],
     .instr (.load .lw .a0 .t1 elementsOffset) (txt "element")]

/-- Counts the element and leaves `a0` as it is. -/
def countCode (index : Int) : List Item :=
  [.instr (.load .lw .t1 .fp index) [], .instr (.opImm .addi .t1 .t1 1) [],
   .instr (.store .sw .t1 .fp index) []]

end Codegen

/-- The code for one of several targets: the value from the stack, what converts it and the store. -/
def Expr.TargetCode (c : Context) (value? : Option Ty) (target : Expr) (own : List Item) : Prop :=
  ∃ conv store, Converts value? target.type? conv ∧ target.StoreCode c store ∧
    own = .instr (.load .lw .a0 .sp 0) (txt "assigned value") :: (conv ++ store)

/-- The code of a statement as far as the statement itself delivers values: into the targets of an
assignment, the variable of a `for` statement and the result of a function. -/
inductive Stmt.SiteCode (c : Context) (pool : Pool) (k : Nat) : Stmt → List Item → Prop
  | assign {loc : Loc} {target value : Expr} {word conv store : List Item}
      (hword : (value.gen c).Produces word) (hconv : Converts value.type? target.type? conv)
      (hstore : target.StoreCode c store) :
    SiteCode c pool k (.assign loc [target] value) (word ++ conv ++ store)
  | assignAll {loc : Loc} {targets : List Expr} {value : Expr} {word : List Item}
      {stores : List (List Item)} (hlength : targets.length ≠ 1)
      (hword : (value.gen c).Produces word)
      (hstores : List.Forall₂ (Expr.TargetCode c value.type?) targets stores) :
    SiteCode c pool k (.assign loc targets value) (word ++
      pushCode .a0 (txt "keep assigned value") ++ stores.flatten ++
      [.instr (.opImm .addi .sp .sp (wordSize * 1 : Nat)) []])
  | each {loc : Loc} {id : Ident} {iterable : Expr} {body : List Stmt} {seq index : Int}
      {iterated conv store inner : List Item} (again exit : Label)
      (hslots : c.frame.forSlots? k = some (seq, index))
      (hiterable : (iterable.gen c).Produces iterated)
      (hconv : Converts (elementOf iterable.type?) id.mark.type? conv)
      (hstore : c.Stores id.name store) (hbody : (Stmt.genAll c (k + 1) body).Produces inner) :
    SiteCode c pool k (.each loc id iterable body) (iterated ++ loopCode seq index again exit ++
      elementCode iterable.type? ++ countCode index ++ conv ++ store ++ inner ++
      [.instr (.j again) [], .label exit []])
  | retNone {loc : Loc} (hconv : Converts (some .noneType) (some c.ret) []) :
    SiteCode c pool k (.ret loc none)
      [.instr (.move .mv .a0 .zero) (txt "return None"), .instr (.j c.epilogue) []]
  | ret {loc : Loc} {e : Expr} {own : List Item} (h : e.Delivered c pool (some c.ret) own) :
    SiteCode c pool k (.ret loc (some e)) (own ++ [.instr (.j c.epilogue) []])
  | expr (loc : Loc) (e : Expr) (own : List Item) : SiteCode c pool k (.expr loc e) own
  | ite (loc : Loc) (test : Expr) (yes no : List Stmt) (own : List Item) :
    SiteCode c pool k (.ite loc test yes no) own
  | loop (loc : Loc) (test : Expr) (body : List Stmt) (own : List Item) :
    SiteCode c pool k (.loop loc test body) own

section
variable {c : Context} {t : Typing.Context} {known : Label → Prop} {v : Ty}

theorem Codegen.elementOf_eq {s elem : Ty} (h : Typing.elemType? s = some elem) :
    elementOf (some s) = some elem := by
  unfold elementOf
  cases s with
  | list a =>
    rw [if_neg (by rintro ⟨⟩)]
    exact h
  | cls x =>
    rw [Typing.elemType?] at h
    · split_ifs at h with hstr
      rw [if_pos (congrArg some (beq_iff_eq.1 hstr))]
      exact h
    · rintro _ ⟨⟩
  | noneType | emptyList => cases h

theorem storeAll_targetCode {value? : Option Ty} (hv : value? = some v) : ∀ {targets : List Expr},
    (∀ target ∈ targets, ∃ p, target.type? = some p ∧ v.GoesInto p) → ∀ s : EmitState,
    All (storeAll c value? targets) s fun _ code _ => ∃ stores,
      List.Forall₂ (Expr.TargetCode c value?) targets stores ∧ code = stores.flatten
  | [], _, s => by
    rw [storeAll, all_pure]
    exact ⟨[], .nil, rfl⟩
  | target :: rest, h, s => by
    obtain ⟨⟨p, hp, hgoes⟩, hrest⟩ := List.forall_mem_cons.1 h
    simp only [storeAll, lw, instr, all_bind, all_items]
    intro _ conv s₁ hconv _ store s₂ hstore _ more s₃ hmore
    obtain ⟨stores, hstores, rfl⟩ := storeAll_targetCode hv hrest s₂ _ _ _ hmore
    exact ⟨_ :: stores, .cons ⟨conv, store, box_converts hv hp hgoes _ _ _ hconv,
      store_storeCode target _ _ _ hstore, rfl⟩ hstores, by simp⟩

theorem assign_siteCode {targets : List Expr} {value : Expr} (hv : value.type? = some v)
    (h : ∀ target ∈ targets, ∃ p, target.type? = some p ∧ v.GoesInto p) (loc : Loc) (k : Nat)
    (s : EmitState) : All (assign c targets value) s fun _ own s' =>
      (Stmt.assign loc targets value).SiteCode c s'.pool k own := by
  unfold assign
  rw [all_bind]
  intro _ word s₁ hword
  split
  · rename_i target
    obtain ⟨p, hp, hgoes⟩ := h target List.mem_cons_self
    rw [all_bind]
    intro _ conv s₂ hconv _ store s₃ hstore
    rw [← List.append_assoc]
    exact .assign ⟨s, s₁, hword⟩ (box_converts hv hp hgoes _ _ _ hconv)
      (store_storeCode target _ _ _ hstore)
  · rename_i hone
    simp only [push, popDiscard, addi, sw, instr, all_bind, all_items]
    intro _ code s₂ hcode
    obtain ⟨stores, hstores, rfl⟩ := storeAll_targetCode hv h _ _ _ _ hcode
    have hlength : targets.length ≠ 1 := fun hlength => by
      obtain ⟨target, rfl⟩ := List.length_eq_one_iff.1 hlength
      exact hone target rfl
    have hsite : (Stmt.assign loc targets value).SiteCode c s₂.pool k _ :=
      .assignAll hlength ⟨s, s₁, hword⟩ hstores
    simpa [pushCode] using hsite

theorem all_nextElement (iterable : Option Ty) (s : EmitState) (Q : Post Unit) :
    All (nextElement iterable) s Q ↔ Q () (elementCode iterable) s := by
  unfold nextElement elementCode
  split_ifs
  all_goals
    simp only [push, Emit.jal, popDiscard, slli, add, addi, sw, lw, instr, all_bind, all_items]
    rfl

theorem each_siteCode {loc : Loc} {id : Ident} {iterable : Expr} {body : List Stmt} {p : Ty}
    (hv : elementOf iterable.type? = some v) (hp : id.mark.type? = some p) (hgoes : v.GoesInto p)
    (k : Nat) (s : EmitState) : All ((Stmt.each loc id iterable body).gen c k) s fun _ own s' =>
      (Stmt.each loc id iterable body).SiteCode c s'.pool k own := by
  simp only [Stmt.gen, forLoop, beqz, branch, addi, lw, sw, Emit.j, Emit.label, instr, all_bind,
    all_items, all_fresh, all_need, all_nextElement]
  rintro ⟨seq, index⟩ hslots _ iterated s₁ hiterated _ conv s₂ hconv _ store s₃ hstore _ inner s₄
    hinner
  have hsite : (Stmt.each loc id iterable body).SiteCode c s₄.pool k _ :=
    .each (freshLabel (txt "for_check") (s.fresh + 1))
      (freshLabel (txt "for_exit") (s.fresh + 1 + 1)) hslots ⟨_, s₁, hiterated⟩
      (box_converts hv hp hgoes _ _ _ hconv)
      (storeVariable_stores id.name _ _ _ hstore) ⟨s₃, s₄, hinner⟩
  simpa [loopCode, countCode] using hsite

/-- The code of a typed statement delivers its values as their places need them. -/
theorem Stmt.gen_siteCode (hc : c.Delivers t known)
    (hret : t.top = false → t.ret? = some c.ret) {u : Stmt} (h : u.Typed t) (k : Nat)
    (s : EmitState) : All (u.gen c k) s fun _ own s' => u.SiteCode c s'.pool k own := by
  have hreturn : ∀ v, Typing.ReturnTyped t v → v.GoesInto c.ret := fun v hv =>
    (hc.tree.widens_of_isCompatible (hv.2 _ (hret hv.1))).toGoesInto
  cases u with
  | expr loc e => exact fun _ own _ _ => .expr loc e own
  | ite loc test yes no => exact fun _ own _ _ => .ite loc test yes no own
  | loop loc test body => exact fun _ own _ _ => .loop loc test body own
  | assign loc targets value =>
    simp only [Stmt.Typed] at h
    obtain ⟨-, v, hv, htargets, -⟩ := h
    rw [Stmt.gen]
    refine assign_siteCode hv (fun target htarget => ?_) loc k s
    obtain ⟨-, -, p, hp, hcompat⟩ := htargets target htarget
    exact ⟨p, hp, (hc.tree.widens_of_isCompatible hcompat).toGoesInto⟩
  | each loc id iterable body =>
    simp only [Stmt.Typed] at h
    obtain ⟨-, -, seq, elem, var, hseq, helem, hvar, -, hcompat⟩ := h
    have helement : elementOf iterable.type? = some elem := hseq ▸ elementOf_eq helem
    exact each_siteCode helement hvar (hc.tree.widens_of_isCompatible hcompat).toGoesInto k s
  | ret loc value? =>
    cases value? with
    | none =>
      simp only [Stmt.Typed] at h
      have hconv : Converts (some .noneType) (some c.ret) [] :=
        ⟨_, _, rfl, rfl, hreturn _ h, .unchanged (.inr rfl)⟩
      simp only [Stmt.gen, mv, Emit.j, instr, all_bind, all_items]
      exact .retNone hconv
    | some e =>
      simp only [Stmt.Typed] at h
      obtain ⟨he, v, hv, hret⟩ := h
      simp only [Stmt.gen, Emit.j, instr, all_bind, all_items]
      intro _ own s₁ hown
      exact .ret (asType_delivered he hv rfl (hreturn _ hret) _ _ _ hown)

end

/-! ### Variables of a function -/

/-- The code gives the variables among the declarations their values, one after the other. -/
inductive InitsCode (c : Context) (pool : Pool) : List LocalDecl → List Item → Prop
  | nil : InitsCode c pool [] []
  | var {d : VarDef} {ds : List LocalDecl} {own rest : List Item} {o : Int} {text : Bytes}
      (ho : c.frame.offset? d.name = some o)
      (h : (Expr.lit d.value).Delivered c pool (some d.ty) own) (hrest : InitsCode c pool ds rest) :
    InitsCode c pool (.var d :: ds) (own ++ .instr (.store .sw .a0 .fp o) text :: rest)
  | other {d : LocalDecl} {ds : List LocalDecl} {rest : List Item} (hd : ∀ v, d ≠ .var v)
      (hrest : InitsCode c pool ds rest) : InitsCode c pool (d :: ds) rest

section
variable {c : Context} {h : Hierarchy} {table : Bindings Entry}

theorem InitsCode.within {pool pool' : Pool} {ds : List LocalDecl} {own : List Item}
    (h : InitsCode c pool ds own) (hpool : pool.Within pool') : InitsCode c pool' ds own := by
  induction h with
  | nil => exact .nil
  | var ho h _ ih => exact .var ho (h.within hpool) ih
  | other hd _ ih => exact .other hd ih

theorem Lit.goesInto_of_isCompatible (htree : h.Tree) {value : Lit} {t : Ty}
    (hcompat : h.isCompatible t (Typing.litType value) = true) :
    (Typing.litType value).GoesInto t :=
  (htree.widens_of_isCompatible hcompat).toGoesInto

theorem initLocals_initsCode (htree : h.Tree) : ∀ {ds : List LocalDecl},
    (∀ d, .var d ∈ ds → d.Typed h table ∧ table.value? d.name = some d.ty) → ∀ s : EmitState,
    All (initLocals c table ds) s fun _ own s' => InitsCode c s'.pool ds own
  | [], _, s => by
    rw [initLocals, all_pure]
    exact .nil
  | .var d :: ds, hds, s => by
    obtain ⟨⟨htyped, hfits⟩, hvalue⟩ := hds d List.mem_cons_self
    have hneed : (table.lookup d.name).bind Entry.value? = some d.ty := hvalue
    have hlit : (Expr.lit d.value).Typed (.ofGlobals ⟨[], []⟩) := by
      simpa only [Expr.Typed] using htyped
    simp only [initLocals, hneed, need_some, pure_bind, instrOf, all_bind, all_items, all_need]
    intro o ho _ own s₁ hown _ rest s₂ hrest
    have hdelivered := asType_delivered (c := c) hlit htyped rfl
      (Lit.goesInto_of_isCompatible htree (hfits _ hvalue)) _ _ _ hown
    exact .var ho (hdelivered.within (Keeps.within hrest))
      (initLocals_initsCode htree (fun d hd => hds d (List.mem_cons_of_mem _ hd)) s₁ _ _ _ hrest)
  | .func _ :: ds, hds, s | .global _ _ :: ds, hds, s | .nonlocal _ _ :: ds, hds, s => by
    unfold initLocals
    intro _ own s' hown
    refine .other (fun v hv => ?_)
      (initLocals_initsCode htree (fun d hd => hds d (List.mem_cons_of_mem _ hd)) s _ _ _ hown)
    cases hv

end

end ChocoRv
