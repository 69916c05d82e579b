import ChocoRv.Proofs.Displacement

/-!
# The code of bodies is steady

The code of an expression moves `sp` back to where it was, whatever it pushes and calls in between;
so does the code of a statement, which starts with nothing pushed. Labels inside the code of a
construct stand at the displacement at which the construct starts.
-/

namespace ChocoRv

open Asm Emit

variable {lev : Label → Int → Prop} {d : Int}

/-- Where the code goes when an operation fails. -/
def errorLabels : List Label := [Codegen.errorNone, Codegen.errorDiv, Codegen.errorOOB]

/-- Code may fail at any displacement. -/
def ErrorsLeave (lev : Label → Int → Prop) : Prop := ∀ l ∈ errorLabels, ∀ d ≤ 0, lev l d

namespace Codegen

theorem frameWalk_steady (c : Context) (hops : Int) : Steady lev (frameWalk c hops) := by
  intro d hd
  unfold frameWalk
  split
  · exact .plain rfl hd
  · exact .bind (.plain rfl hd) fun _ => .forM (fun f => .plain rfl hd) _

theorem loadVariable_steady (c : Context) (x : Name) : Steady lev (loadVariable c x) := by
  intro d hd
  unfold loadVariable
  split
  · exact .plainOf rfl hd
  · split
    · exact .plainOf rfl hd
    · exact .bind (frameWalk_steady c _ d hd) fun _ => .plainOf rfl hd

theorem storeVariable_steady (c : Context) (x : Name) : Steady lev (storeVariable c x) := by
  intro d hd
  unfold storeVariable
  split
  · exact .plainOf rfl hd
  · split
    · exact .plainOf rfl hd
    · exact .bind (frameWalk_steady c _ d hd) fun _ => .plainOf rfl hd

theorem pushStaticLink_moves (c : Context) (n : Nat) (hd : d ≤ 0) :
    Moves lev d (pushStaticLink c n) (d - 4) :=
  .bind (frameWalk_steady c _ d hd) fun _ => .push .t0 hd

theorem box_steady (value target : Option Ty) : Steady lev (box value target) := by
  intro d hd
  unfold box
  split_ifs
  · exact .pure ()
  · exact .plain rfl hd
  · exact .plain rfl hd
  · exact .pure ()

theorem comparison_steady (c : Cond) (r₁ r₂ : Reg) (text : String) :
    Steady lev (comparison c r₁ r₂ text) := by
  intro d hd s
  simp only [comparison, branch, li, j, label, Emit.instr, all_bind, all_fresh, all_items,
    List.nil_append, List.cons_append]
  refine ⟨by simp [Instr.shift], fun hl => ?_⟩
  simp only [levels_instr', levels_label', Instr.shift, Int.add_zero, levels_nil', and_true] at hl
  simp only [tidy_cons, Item.shift_instr, Item.shift_label, Instr.shift, Int.add_zero, tidy_nil,
    and_true]
  exact ⟨Instr.tidy_of_jump rfl hd hl.1, Instr.tidy_of_isPlain rfl hd,
    Instr.tidy_of_jump rfl hd hl.2, trivial, Instr.tidy_of_isPlain rfl hd, trivial⟩

theorem floorDiv_steady (herr : ErrorsLeave lev) : Steady lev floorDiv := by
  intro d hd s
  have hzero := herr errorDiv (by decide) d hd
  simp only [floorDiv, beqz, branch, addi, mv, label, Emit.instr, all_bind, all_fresh, all_items,
    List.nil_append, List.cons_append]
  refine ⟨by simp [Instr.shift], fun hl => ?_⟩
  simp only [levels_instr', levels_label', Instr.shift, Int.add_zero, levels_nil', and_true] at hl
  simp only [tidy_cons, Item.shift_instr, Item.shift_label, Instr.shift, Int.add_zero, tidy_nil,
    and_true]
  exact ⟨Instr.tidy_of_jump rfl hd hzero, Instr.tidy_of_isPlain rfl hd,
    Instr.tidy_of_isPlain rfl hd, Instr.tidy_of_jump rfl hd hl, Instr.tidy_of_isPlain rfl hd,
    Instr.tidy_of_jump rfl hd hl, Instr.tidy_of_isPlain rfl hd, trivial,
    Instr.tidy_of_isPlain rfl hd⟩

theorem floorMod_steady (herr : ErrorsLeave lev) : Steady lev floorMod := by
  intro d hd s
  have hzero := herr errorDiv (by decide) d hd
  simp only [floorMod, beqz, branch, add, mv, label, Emit.instr, all_bind, all_fresh, all_items,
    List.nil_append, List.cons_append]
  refine ⟨by simp [Instr.shift], fun hl => ?_⟩
  simp only [levels_instr', levels_label', Instr.shift, Int.add_zero, levels_nil', and_true] at hl
  simp only [tidy_cons, Item.shift_instr, Item.shift_label, Instr.shift, Int.add_zero, tidy_nil,
    and_true]
  exact ⟨Instr.tidy_of_jump rfl hd hzero, Instr.tidy_of_isPlain rfl hd,
    Instr.tidy_of_jump rfl hd hl, Instr.tidy_of_isPlain rfl hd, Instr.tidy_of_jump rfl hd hl,
    Instr.tidy_of_isPlain rfl hd, trivial, Instr.tidy_of_isPlain rfl hd⟩

/-! ### Expressions -/

theorem literal_steady (l : Lit) : Steady lev (literal l) := by
  intro d hd
  cases l with
  | str v => exact .bind (.strConstant v) fun _ => .plain rfl hd
  | int | bool | none => exact .plain rfl hd

theorem asType_steady {e : Expr} {code : Emit Unit} (h : Steady lev code) (target : Option Ty) :
    Steady lev (asType e code target) := by
  intro d hd
  unfold asType
  split
  · exact h d hd
  · split
    · exact .bind (.intConstant _) fun _ => .plain rfl hd
    · exact .plain rfl hd
    · exact .bind (h d hd) fun _ => box_steady _ _ d hd

theorem operands_steady {l r : Emit Unit} (hl : Steady lev l) (hr : Steady lev r) :
    Steady lev (operands l r) := by
  intro d hd
  refine .bind (hl d hd) fun _ => .bind (.push .a0 hd) fun _ => .bind (hr _ (by omega)) fun _ => ?_
  exact .cast (.pop (by decide) (by omega)) (by omega)

theorem runtimeCall_steady (routine : String) {l r : Emit Unit} (hl : Steady lev l)
    (hr : Steady lev r) : Steady lev (runtimeCall routine l r) := by
  intro d hd
  refine .bind (hl d hd) fun _ => .bind (.push .a0 hd) fun _ => .bind (hr _ (by omega)) fun _ => ?_
  refine .bind (.push .a0 (by omega)) fun _ => .bind (.plain rfl (by omega)) fun _ => ?_
  exact .cast (.popDiscard 2 (by omega)) (by omega)

theorem concatOperand_moves (result elem : Option Ty) {code : Emit Unit} (h : Steady lev code)
    (hd : d ≤ 0) : Moves lev d (concatOperand result elem code) (d - 8) := by
  have hlast : ∀ (r : Reg) (c : String),
      Moves lev (d - 4) (push r c) (d - 8) := fun r c =>
    .cast (.push r (by omega)) (by omega)
  refine .bind (h d hd) fun _ => .bind (.push .a0 hd) fun _ => ?_
  split_ifs
  · exact hlast _ _
  · exact .bind (.plain rfl (by omega)) fun _ => hlast _ _
  · exact .bind (.plain rfl (by omega)) fun _ => hlast _ _

theorem concat_steady (result left right : Option Ty) {l r : Emit Unit} (hl : Steady lev l)
    (hr : Steady lev r) : Steady lev (concat result left right l r) := by
  intro d hd
  refine .bind (concatOperand_moves _ _ hl hd) fun _ =>
    .bind (concatOperand_moves _ _ hr (by omega)) fun _ => .bind (.plain rfl (by omega)) fun _ => ?_
  exact .cast (.popDiscard 4 (by omega)) (by omega)

/-- Code with a jump behind the rest of it. -/
theorem shortCut_steady {l r : Emit Unit} (hl : Steady lev l) (hr : Steady lev r) (stem c : String)
    {i : Label → Instr} (hi : ∀ done, (i done).jump? = some done) : Steady lev (do
      let done ← fresh stem
      l
      Emit.instr (i done) c
      r
      label done) := by
  intro d hd s
  simp only [label, Emit.instr, all_bind, all_fresh, all_items, List.nil_append]
  intro _ code₁ s₁ h₁ _ code₂ s₂ h₂
  replace h₁ := hl d hd _ _ _ _ h₁
  replace h₂ := hr d hd _ _ _ _ h₂
  have hshift := Instr.shift_of_jump (hi (freshLabel (txt stem) (s.fresh + 1)))
  refine ⟨by simp [h₁.net_eq_zero, h₂.net_eq_zero, hshift], fun hlev => ?_⟩
  simp only [levels_append', levels_instr', levels_label', h₁.net_eq_zero, h₂.net_eq_zero, hshift,
    Int.add_zero, net_cons, net_nil, Item.shift_instr, levels_nil', true_and, and_true] at hlev
  simp only [tidy_append, tidy_cons, h₁.net_eq_zero, h₂.net_eq_zero, hshift, Int.add_zero, net_cons,
    net_nil, Item.shift_instr, Item.shift_label, tidy_nil, and_true]
  exact ⟨h₁.tidy hlev.1, Instr.tidy_of_jump (hi _) hd hlev.2.2, h₂.tidy hlev.2.1, trivial⟩

/-- Code with two branches. -/
theorem ifElse_moves {test yes no : List Item} {otherwise done : Label} {c c' c₁ c₂ : Bytes}
    (hd : d ≤ 0) (htest : Asm.Moves lev d test d) (hyes : Asm.Moves lev d yes d)
    (hno : Asm.Moves lev d no d) : Asm.Moves lev d
      (test ++ (.instr (.branchZero .beqz .a0 otherwise) c :: (yes ++ (.instr (.j done) c' ::
        .label otherwise c₁ :: (no ++ [.label done c₂]))))) d := by
  refine ⟨by simp [htest.net_eq_zero, hyes.net_eq_zero, hno.net_eq_zero, Instr.shift],
    fun hlev => ?_⟩
  simp only [levels_append', levels_instr', levels_label', htest.net_eq_zero, hyes.net_eq_zero,
    hno.net_eq_zero, Instr.shift, Int.add_zero, levels_nil', and_true] at hlev
  simp only [tidy_append, tidy_cons, htest.net_eq_zero, hyes.net_eq_zero, hno.net_eq_zero,
    Instr.shift, Int.add_zero, Item.shift_instr, Item.shift_label, tidy_nil, and_true]
  exact ⟨htest.tidy hlev.1, Instr.tidy_of_jump rfl hd hlev.2.2.1, hyes.tidy hlev.2.1,
    Instr.tidy_of_jump rfl hd hlev.2.2.2.2, trivial, hno.tidy hlev.2.2.2.1, trivial⟩

theorem binary_steady (herr : ErrorsLeave lev) (op : BinOp) (result left right : Option Ty)
    {l r : Emit Unit} (hl : Steady lev l) (hr : Steady lev r) :
    Steady lev (binary op result left right l r) := by
  intro d hd
  have hops := operands_steady hl hr d hd
  cases op <;> simp only [binary]
  case and =>
    exact shortCut_steady hl hr "logic_end" "short-circuit and"
      (i := fun done => .branchZero .beqz .a0 done) (fun _ => rfl) d hd
  case or =>
    exact shortCut_steady hl hr "logic_end" "short-circuit or"
      (i := fun done => .branchZero .bnez .a0 done) (fun _ => rfl) d hd
  case add =>
    split_ifs
    · exact runtimeCall_steady _ hl hr d hd
    · exact .bind hops fun _ => .plain rfl hd
    · exact concat_steady _ _ _ hl hr d hd
  case eq =>
    split_ifs
    · exact runtimeCall_steady _ hl hr d hd
    · exact .bind hops fun _ => comparison_steady _ _ _ _ d hd
  case ne =>
    split_ifs
    · exact runtimeCall_steady _ hl hr d hd
    · exact .bind hops fun _ => comparison_steady _ _ _ _ d hd
  case sub | mul => exact .bind hops fun _ => .plain rfl hd
  case floorDiv => exact .bind hops fun _ => floorDiv_steady herr d hd
  case mod => exact .bind hops fun _ => floorMod_steady herr d hd
  all_goals exact .bind hops fun _ => comparison_steady _ _ _ _ d hd

theorem elementAddress_steady (herr : ErrorsLeave lev) {seq i : Emit Unit} (hseq : Steady lev seq)
    (hi : Steady lev i) : Steady lev (elementAddress seq i) := by
  intro d hd
  have hbounds := herr errorOOB (by decide) d hd
  refine .bind (operands_steady hseq hi d hd) fun _ => ?_
  refine .bind (.jump rfl hd (herr errorNone (by decide) d hd)) fun _ => ?_
  refine .bind (.plain rfl hd) fun _ => .bind (.jump rfl hd hbounds) fun _ => ?_
  exact .bind (.jump rfl hd hbounds) fun _ => .bind (.plain rfl hd) fun _ => .plain rfl hd

theorem construct_steady (c : Context) (layout : ClassLayout) : Steady lev (construct c layout) := by
  intro d hd
  refine .bind (.plain rfl hd) fun _ => .bind (.plainOf rfl hd) fun _ => ?_
  refine .bind (.push .a0 hd) fun _ => .bind (pushStaticLink_moves c 0 (by omega)) fun _ => ?_
  refine .bind (.push .a0 (by omega)) fun _ => .bind (.plain rfl (by omega)) fun _ => ?_
  refine .bind (.ofExcept _) fun _ => .bind (.plain rfl (by omega)) fun _ => ?_
  refine .bind (.plain rfl (by omega)) fun _ => .bind (.popDiscard 2 (by omega)) fun _ => ?_
  exact .cast (.pop (by decide) (by omega)) (by omega)

/-- A call takes back the static link and the arguments. -/
theorem callLabel_moves (l : Label) (x : Name) (n : Nat) (hd : d ≤ 0) :
    Moves lev (d - 4 * (n + 1)) (callLabel l x n) d := by
  refine .bind (.plainOf rfl (by omega)) fun _ => .cast (.popDiscard (n + 1) ?_) ?_
  · omega
  · omega

end Codegen

open Codegen

mutual

/-- The code of an expression leaves the stack as it was. -/
theorem Expr.gen_steady (herr : ErrorsLeave lev) (c : Codegen.Context) :
    ∀ e : Expr, Steady lev (e.gen c)
  | .lit l => literal_steady l.value
  | .name id => loadVariable_steady c id.name
  | .unary _ op e => fun d hd => by
    simp only [Expr.gen]
    refine .bind (e.gen_steady herr c d hd) fun _ => ?_
    cases op <;> exact .plain rfl hd
  | .binary _ l op r => binary_steady herr _ _ _ _ (l.gen_steady herr c) (r.gen_steady herr c)
  | .cond m test yes no => fun d hd s => by
    have hyes := asType_steady (e := yes) (yes.gen_steady herr c) m.type? d hd
    have hno := asType_steady (e := no) (no.gen_steady herr c) m.type? d hd
    simp only [Expr.gen, label, beqz, j, Emit.instr, all_bind, all_fresh, all_items,
      List.nil_append]
    intro _ code₁ s₁ h₁ _ code₂ s₂ h₂ _ code₃ s₃ h₃
    exact ifElse_moves hd (test.gen_steady herr c d hd _ _ _ _ h₁) (hyes _ _ _ _ h₂)
      (hno _ _ _ _ h₃)
  | .list m elems => fun d hd => by
    simp only [Expr.gen]
    refine .bind (Expr.genElems_moves herr c _ elems hd) fun _ => ?_
    refine .bind (.plain rfl (by omega)) fun _ => .bind (.push .a0 (by omega)) fun _ => ?_
    refine .bind (.plain rfl (by omega)) fun _ => .cast (.popDiscard _ ?_) ?_
    · omega
    · omega
  | .index _ seq i => fun d hd => by
    simp only [Expr.gen]
    split
    · exact runtimeCall_steady _ (seq.gen_steady herr c) (i.gen_steady herr c) d hd
    · exact .bind (elementAddress_steady herr (seq.gen_steady herr c) (i.gen_steady herr c) d hd)
        fun _ => .plain rfl hd
  | .member _ object id => fun d hd => by
    simp only [Expr.gen]
    refine .bind (object.gen_steady herr c d hd) fun _ => ?_
    refine .bind (.jump rfl hd (herr errorNone (by decide) d hd)) fun _ => ?_
    exact .bind (.ofExcept _) fun _ => .bind (.ofExcept _) fun _ => .plainOf rfl hd
  | .call _ id args => fun d hd => by
    have hargs := fun ts => Expr.genArgs_moves herr c ts args (d := d - 4) (by omega)
    simp only [Expr.gen]
    split
    · refine .bind (pushStaticLink_moves c _ hd) fun _ => .bind (.need _ _) fun ty => ?_
      exact .bind (.cast (hargs ty.params) (by omega)) fun _ => callLabel_moves _ _ _ hd
    · split
      · exact construct_steady c _ d hd
      · refine .bind (.need _ _) fun l => .bind (pushStaticLink_moves c _ hd) fun _ => ?_
        refine .bind (.need _ _) fun ty => .bind (.cast (hargs ty.params) ?_) fun _ =>
          callLabel_moves _ _ _ hd
        omega
  | .methodCall _ _ object id args => fun d hd => by
    have hargs := fun ts => Expr.genArgs_moves herr c ts args (d := d - 4 - 4) (by omega)
    simp only [Expr.gen]
    refine .bind (.ofExcept _) fun layout => .bind (.need _ _) fun ty => ?_
    refine .bind (pushStaticLink_moves c _ hd) fun _ => .bind (.need _ _) fun self => ?_
    refine .bind (asType_steady (object.gen_steady herr c) _ _ (by omega)) fun _ => ?_
    refine .bind (.push .a0 (by omega)) fun _ => .bind (hargs ty.params.tail) fun _ => ?_
    have hself := wordSize_mul args.length
    refine .bind (.load (by decide) (by omega) (by omega)) fun _ => ?_
    refine .bind (.jump rfl (by omega) (herr errorNone (by decide) _ (by omega))) fun _ => ?_
    refine .bind (.plain rfl (by omega)) fun _ => .bind (.ofExcept _) fun _ => ?_
    refine .bind (.plainOf rfl (by omega)) fun _ => .bind (.plain rfl (by omega)) fun _ => ?_
    refine .cast (.popDiscard _ ?_) ?_
    · omega
    · omega

/-- Every element of a list display is pushed. -/
theorem Expr.genElems_moves (herr : ErrorsLeave lev) (c : Codegen.Context) (elem : Option Ty) :
    ∀ (es : List Expr) {d : Int}, d ≤ 0 →
      Moves lev d (Expr.genElems c elem es) (d - 4 * es.length)
  | [], d, _ => .cast (.pure ()) (by simp)
  | e :: es, d, hd => by
    simp only [Expr.genElems]
    refine .bind (asType_steady (e.gen_steady herr c) _ d hd) fun _ => ?_
    refine .bind (.push .a0 hd) fun _ => .cast (Expr.genElems_moves herr c elem es (by omega)) ?_
    rw [List.length_cons]
    omega

/-- Every argument is pushed. -/
theorem Expr.genArgs_moves (herr : ErrorsLeave lev) (c : Codegen.Context) :
    ∀ (ts : List Ty) (es : List Expr) {d : Int}, d ≤ 0 →
      Moves lev d (Expr.genArgs c ts es) (d - 4 * es.length)
  | _, [], d, _ => by
    simp only [Expr.genArgs]
    exact .cast (.pure ()) (by simp)
  | [], _ :: _, _, _ => by
    simp only [Expr.genArgs]
    exact .fail _
  | t :: ts, e :: es, d, hd => by
    simp only [Expr.genArgs]
    refine .bind (asType_steady (e.gen_steady herr c) _ d hd) fun _ => ?_
    refine .bind (.push .a0 hd) fun _ => .cast (Expr.genArgs_moves herr c ts es (by omega)) ?_
    rw [List.length_cons]
    omega

end

/-! ### Statements -/

namespace Codegen

theorem store_steady (herr : ErrorsLeave lev) (c : Context) (e : Expr) :
    Steady lev (store c e) := by
  intro d hd
  cases e with
  | name id => exact storeVariable_steady c id.name d hd
  | member m object id =>
    refine .bind (.push .a0 hd) fun _ => .bind (object.gen_steady herr c _ (by omega)) fun _ => ?_
    refine .bind (.jump rfl (by omega) (herr errorNone (by decide) _ (by omega))) fun _ => ?_
    refine .bind (.cast (.pop (by decide) (by omega)) (Int.sub_add_cancel d 4)) fun _ => ?_
    exact .bind (.ofExcept _) fun _ => .bind (.ofExcept _) fun _ => .plainOf rfl hd
  | index m seq i =>
    have haddress := elementAddress_steady herr (seq.gen_steady herr c) (i.gen_steady herr c)
    refine .bind (.push .a0 hd) fun _ => .bind (haddress _ (by omega)) fun _ => ?_
    exact .bind (.cast (.pop (by decide) (by omega)) (Int.sub_add_cancel d 4)) fun _ =>
      .plain rfl hd
  | lit | unary | binary | cond | list | call | methodCall => exact .fail _

/-- The value stays on top of the stack. -/
theorem storeAll_moves (herr : ErrorsLeave lev) (c : Context) (value : Option Ty)
    (hd : d + 4 ≤ 0) : ∀ es : List Expr, Moves lev d (storeAll c value es) d := by
  intro es
  induction es with
  | nil => exact .pure ()
  | cons e es ih =>
    refine .bind (.load (by decide) (Int.le_refl 0) (by omega)) fun _ => ?_
    refine .bind (box_steady _ _ _ (by omega)) fun _ => ?_
    exact .bind (store_steady herr c e _ (by omega)) fun _ => ih

theorem assign_steady (herr : ErrorsLeave lev) (c : Context) (targets : List Expr)
    (value : Expr) : Steady lev (assign c targets value) := by
  intro d hd
  unfold assign
  refine .bind (value.gen_steady herr c d hd) fun _ => ?_
  split
  · exact .bind (box_steady _ _ d hd) fun _ => store_steady herr c _ d hd
  · refine .bind (.push .a0 hd) fun _ => .bind (storeAll_moves herr c _ (by omega) _) fun _ => ?_
    exact .cast (.popDiscard 1 (by omega)) (by omega)

theorem nextElement_steady (t : Option Ty) : Steady lev (nextElement t) := by
  intro d hd
  unfold nextElement
  split
  · refine .bind (.push .t0 hd) fun _ => .bind (.push .t1 (by omega)) fun _ => ?_
    refine .bind (.plain rfl (by omega)) fun _ => .cast (.popDiscard 2 (by omega)) (by omega)
  · exact .bind (.plain rfl hd) fun _ => .bind (.plain rfl hd) fun _ => .plain rfl hd

theorem conditional_moves {test yes : Emit Unit} {no? : Option (Emit Unit)} (hd : d ≤ 0)
    (htest : Moves lev d test d) (hyes : Moves lev d yes d)
    (hno : ∀ no, no? = some no → Moves lev d no d) :
    Moves lev d (conditional test yes no?) d := by
  intro s
  cases no? with
  | none =>
    simp only [conditional, label, beqz, Emit.instr, all_bind, all_fresh, all_items,
      List.nil_append]
    intro _ code₁ s₁ h₁ _ code₂ s₂ h₂
    replace h₁ := htest _ _ _ _ h₁
    replace h₂ := hyes _ _ _ _ h₂
    refine ⟨by simp [h₁.net_eq_zero, h₂.net_eq_zero, Instr.shift], fun hlev => ?_⟩
    simp only [levels_append', levels_instr', levels_label', h₁.net_eq_zero, h₂.net_eq_zero,
      Instr.shift, Int.add_zero, List.singleton_append, levels_nil', and_true] at hlev
    simp only [tidy_append, tidy_cons, h₁.net_eq_zero, h₂.net_eq_zero, Instr.shift, Int.add_zero,
      List.singleton_append, Item.shift_instr, Item.shift_label, tidy_nil, and_true]
    exact ⟨h₁.tidy hlev.1, Instr.tidy_of_jump rfl hd hlev.2.2, h₂.tidy hlev.2.1, trivial⟩
  | some no =>
    simp only [conditional, label, beqz, j, Emit.instr, all_bind, all_fresh, all_items,
      List.nil_append]
    intro _ code₁ s₁ h₁ _ code₂ s₂ h₂ _ code₃ s₃ h₃
    exact ifElse_moves hd (htest _ _ _ _ h₁) (hyes _ _ _ _ h₂) (hno no rfl _ _ _ _ h₃)

theorem whileLoop_moves {test body : Emit Unit} (hd : d ≤ 0) (htest : Moves lev d test d)
    (hbody : Moves lev d body d) : Moves lev d (whileLoop test body) d := by
  intro s
  simp only [whileLoop, label, beqz, j, Emit.instr, all_bind, all_fresh, all_items,
    List.nil_append]
  intro _ code₁ s₁ h₁ _ code₂ s₂ h₂
  replace h₁ := htest _ _ _ _ h₁
  replace h₂ := hbody _ _ _ _ h₂
  refine ⟨by simp [h₁.net_eq_zero, h₂.net_eq_zero, Instr.shift], fun hlev => ?_⟩
  simp only [levels_append', levels_instr', levels_label', h₁.net_eq_zero, h₂.net_eq_zero,
    Instr.shift, Int.add_zero, List.singleton_append, levels_nil', and_true] at hlev
  simp only [tidy_append, tidy_cons, h₁.net_eq_zero, h₂.net_eq_zero, Instr.shift, Int.add_zero,
    List.singleton_append, Item.shift_instr, Item.shift_label, tidy_nil, and_true]
  exact ⟨trivial, h₁.tidy hlev.2.1, Instr.tidy_of_jump rfl hd hlev.2.2.2, h₂.tidy hlev.2.2.1,
    Instr.tidy_of_jump rfl hd hlev.1, trivial⟩

theorem forLoop_moves (herr : ErrorsLeave lev) (c : Context) (slots : Int × Int) (id : Ident)
    (t : Option Ty) {iterable body : Emit Unit} (hd : d ≤ 0) (hiterable : Moves lev d iterable d)
    (hbody : Moves lev d body d) : Moves lev d (forLoop c slots id t iterable body) d := by
  intro s
  have hnone := herr errorNone (by decide) d hd
  simp only [forLoop, label, beqz, j, lw, sw, addi, branch, Emit.instr, all_bind, all_fresh,
    all_items, List.nil_append, List.singleton_append]
  intro _ code₁ s₁ h₁ _ code₂ s₂ h₂ _ code₃ s₃ h₃ _ code₄ s₄ h₄ _ code₅ s₅ h₅
  replace h₁ := hiterable _ _ _ _ h₁
  replace h₂ : Asm.Moves lev d code₂ d := nextElement_steady t d hd _ _ _ _ h₂
  replace h₃ : Asm.Moves lev d code₃ d := box_steady _ _ d hd _ _ _ _ h₃
  replace h₄ : Asm.Moves lev d code₄ d := storeVariable_steady c _ d hd _ _ _ _ h₄
  replace h₅ := hbody _ _ _ _ h₅
  refine ⟨by simp [h₁.net_eq_zero, h₂.net_eq_zero, h₃.net_eq_zero, h₄.net_eq_zero, h₅.net_eq_zero,
    Instr.shift], fun hlev => ?_⟩
  simp only [levels_append', levels_instr', levels_label', h₁.net_eq_zero, h₂.net_eq_zero,
    h₃.net_eq_zero, h₄.net_eq_zero, h₅.net_eq_zero, Instr.shift, Int.add_zero, levels_nil',
    and_true] at hlev
  obtain ⟨hlev₁, hagain, hlev₂, hlev₃, hlev₄, hlev₅, hexit⟩ := hlev
  simp only [tidy_append, tidy_cons, h₁.net_eq_zero, h₂.net_eq_zero, h₃.net_eq_zero,
    h₄.net_eq_zero, h₅.net_eq_zero, Instr.shift, Int.add_zero, Item.shift_instr, Item.shift_label,
    tidy_nil, and_true]
  refine ⟨h₁.tidy hlev₁, Instr.tidy_of_jump rfl hd hnone, Instr.tidy_of_isPlain rfl hd,
    Instr.tidy_of_isPlain rfl hd, trivial, Instr.tidy_of_isPlain rfl hd,
    Instr.tidy_of_isPlain rfl hd, Instr.tidy_of_isPlain rfl hd, Instr.tidy_of_jump rfl hd hexit,
    h₂.tidy hlev₂, ?_⟩
  exact ⟨Instr.tidy_of_isPlain rfl hd, Instr.tidy_of_isPlain rfl hd, Instr.tidy_of_isPlain rfl hd,
    h₃.tidy hlev₃, h₄.tidy hlev₄, h₅.tidy hlev₅, Instr.tidy_of_jump rfl hd hagain, trivial⟩

theorem initLocals_steady (c : Context) (table : Bindings Entry) :
    ∀ ds : List LocalDecl, Steady lev (initLocals c table ds)
  | [] => fun _ _ => .pure ()
  | .var d :: ds => fun _ hd => by
    unfold initLocals
    refine .bind (.need _ _) fun _ => .bind (.need _ _) fun _ => ?_
    refine .bind (asType_steady (literal_steady _) _ _ hd) fun _ => ?_
    exact .bind (.plainOf rfl hd) fun _ => initLocals_steady c table ds _ hd
  | .global _ _ :: ds => by unfold initLocals; exact initLocals_steady c table ds
  | .nonlocal _ _ :: ds => by unfold initLocals; exact initLocals_steady c table ds
  | .func _ :: ds => by unfold initLocals; exact initLocals_steady c table ds

end Codegen

mutual

/-- The code of a statement starts and ends with nothing on the stack, and so it returns. -/
theorem Stmt.gen_moves (herr : ErrorsLeave lev) {c : Codegen.Context} (hret : lev c.epilogue 0) :
    ∀ (k : Nat) (s : Stmt), Moves lev 0 (s.gen c k) 0
  | k, .expr _ e => by
    simp only [Stmt.gen]
    exact e.gen_steady herr c 0 (Int.le_refl 0)
  | k, .assign _ targets value => by
    simp only [Stmt.gen]
    exact assign_steady herr c targets value 0 (Int.le_refl 0)
  | k, .ite _ test yes no => by
    simp only [Stmt.gen]
    refine conditional_moves (Int.le_refl 0) (test.gen_steady herr c 0 (Int.le_refl 0))
      (Stmt.genAll_moves herr hret k yes) fun code hcode => ?_
    split at hcode
    · cases hcode
    · cases hcode
      exact Stmt.genAll_moves herr hret _ no
  | k, .loop _ test body => by
    simp only [Stmt.gen]
    exact whileLoop_moves (Int.le_refl 0) (test.gen_steady herr c 0 (Int.le_refl 0))
      (Stmt.genAll_moves herr hret k body)
  | k, .each _ id iterable body => by
    simp only [Stmt.gen]
    exact .bind (.need _ _) fun slots => forLoop_moves herr c slots id _ (Int.le_refl 0)
      (iterable.gen_steady herr c 0 (Int.le_refl 0)) (Stmt.genAll_moves herr hret (k + 1) body)
  | k, .ret _ none => by
    simp only [Stmt.gen]
    exact .bind (.plain rfl (Int.le_refl 0)) fun _ => .jump rfl (Int.le_refl 0) hret
  | k, .ret _ (some e) => by
    simp only [Stmt.gen]
    exact .bind (asType_steady (e.gen_steady herr c) _ 0 (Int.le_refl 0)) fun _ =>
      .jump rfl (Int.le_refl 0) hret

theorem Stmt.genAll_moves (herr : ErrorsLeave lev) {c : Codegen.Context}
    (hret : lev c.epilogue 0) : ∀ (k : Nat) (ss : List Stmt), Moves lev 0 (Stmt.genAll c k ss) 0
  | k, [] => by
    simp only [Stmt.genAll]
    exact .pure ()
  | k, s :: ss => by
    simp only [Stmt.genAll]
    exact .bind (s.gen_moves herr hret k) fun _ => Stmt.genAll_moves herr hret _ ss

end

end ChocoRv
