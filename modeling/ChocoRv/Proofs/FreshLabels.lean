import ChocoRv.Proofs.Decimals
import ChocoRv.Proofs.Emitting
import Mathlib.Data.List.Nodup

/-!
# Fresh labels

Each fresh label carries a number that no other label has. The code of an expression or statement
defines labels with the numbers that were handed out for it and with no others, each at most once;
so no label is defined twice in the code of a body.
-/

namespace ChocoRv

open Asm

/-! ### Numbers in labels -/

/-- The number of a fresh label can be read off it. -/
theorem freshLabel_number {stem stem' : Bytes} {k k' : Nat}
    (h : freshLabel stem k = freshLabel stem' k') : k = k' := by
  -- the digits at the end stop at the underscore
  have hdigits : ∀ (stem : Bytes) (k : Nat),
      (freshLabel stem k).reverse.takeWhile Byte.isDigit = (decimal k).reverse := by
    intro stem k
    rw [freshLabel, List.reverse_append, List.takeWhile_append_of_pos]
    · rw [List.reverse_append, show (txt "_").reverse = [95] from rfl, List.singleton_append,
        List.takeWhile_cons_of_neg (by decide), List.append_nil]
    · exact fun b hb => isDigit_of_mem_decimal (List.mem_reverse.1 hb)
  have heq : (decimal k).reverse = (decimal k').reverse := by rw [← hdigits stem, h, hdigits]
  exact decimal_injective (List.reverse_injective heq)

/-- A fresh label ends with a digit. -/
theorem freshLabel_ne {l : Label} (h : l.getLast?.all Byte.isDigit = false) (stem : Bytes)
    (k : Nat) : freshLabel stem k ≠ l := by
  rintro rfl
  have hne : decimal k ≠ [] := by simp [decimal, Nat.toDigits_ne_nil]
  rw [freshLabel, List.getLast?_append_of_ne_nil _ hne, List.getLast?_eq_some_getLast hne] at h
  simp [isDigit_of_mem_decimal (List.getLast_mem hne)] at h

/-! ### Labels of code -/

/-- The labels that the code defines. -/
def defined (code : List Item) : List Label := code.filterMap Item.defines?

@[simp] theorem defined_nil : defined [] = [] := rfl

@[simp] theorem defined_append (code more : List Item) :
    defined (code ++ more) = defined code ++ defined more :=
  List.filterMap_append

@[simp] theorem defined_instr (i : Instr) (c : Bytes) (code : List Item) :
    defined (.instr i c :: code) = defined code := rfl

@[simp] theorem defined_label (l : Label) (c : Bytes) (code : List Item) :
    defined (.label l c :: code) = l :: defined code := rfl

@[simp] theorem defined_globalLabel (l : Label) (code : List Item) :
    defined (.globalLabel l :: code) = l :: defined code := rfl

theorem defined_flatMap {α : Type} {f : α → List Item} {g : α → Label} : ∀ {as : List α},
    (∀ a ∈ as, defined (f a) = [g a]) → defined (as.flatMap f) = as.map g
  | [], _ => rfl
  | a :: as, h => by
    obtain ⟨ha, has⟩ := List.forall_mem_cons.1 h
    rw [List.flatMap_cons, defined_append, ha, defined_flatMap has]
    rfl

/-- The stems of fresh labels. -/
def stems : List String :=
  ["cmp_true", "cmp_end", "divmod_end", "logic_end", "ifexpr_else", "ifexpr_end", "if_end",
   "if_else", "while_check", "while_exit", "for_check", "for_exit"]

open Classical in
/-- How many labels with number `k` there are. -/
noncomputable def labelCount (k : Nat) (ls : List Label) : Nat :=
  ls.countP fun l => ∃ stem, l = freshLabel stem k

@[simp] theorem labelCount_nil (k : Nat) : labelCount k [] = 0 := rfl

@[simp] theorem labelCount_append (k : Nat) (ls ls' : List Label) :
    labelCount k (ls ++ ls') = labelCount k ls + labelCount k ls' :=
  List.countP_append

open Classical in
theorem labelCount_cons (k j : Nat) (stem : Bytes) (ls : List Label) :
    labelCount k (freshLabel stem j :: ls) = labelCount k ls + if k = j then 1 else 0 := by
  rw [labelCount, List.countP_cons]
  congr 1
  by_cases h : k = j
  · have hex : ∃ stem', freshLabel stem j = freshLabel stem' k := ⟨stem, by rw [h]⟩
    rw [if_pos h, if_pos (decide_eq_true hex)]
  · have hex : ¬ ∃ stem', freshLabel stem j = freshLabel stem' k :=
      fun ⟨stem', heq⟩ => h (freshLabel_number heq).symm
    rw [if_neg h, if_neg (by simpa using hex)]

/-- The labels of the code carry numbers handed out between the two states, each at most once. -/
structure Numbered (s : EmitState) (code : List Item) (s' : EmitState) : Prop where
  le : s.fresh ≤ s'.fresh
  fresh : ∀ l ∈ defined code, ∃ stem ∈ stems, ∃ k, l = freshLabel (txt stem) k
  count : ∀ k, labelCount k (defined code) ≤ if s.fresh < k ∧ k ≤ s'.fresh then 1 else 0

namespace Numbered

variable {s s₁ s₂ : EmitState} {code more : List Item}

theorem of_none (hfresh : s.fresh = s₁.fresh) (hcode : defined code = []) :
    Numbered s code s₁ := by
  refine ⟨Nat.le_of_eq hfresh, by simp [hcode], by simp [hcode]⟩

theorem append (h : Numbered s code s₁) (h' : Numbered s₁ more s₂) :
    Numbered s (code ++ more) s₂ := by
  refine ⟨Nat.le_trans h.le h'.le, ?_, fun k => ?_⟩
  · rw [defined_append]
    exact List.forall_mem_append.2 ⟨h.fresh, h'.fresh⟩
  · have hk := h.count k
    have hk' := h'.count k
    have hle := h.le
    have hle' := h'.le
    rw [defined_append, labelCount_append]
    split_ifs at hk hk' ⊢ <;> omega

/-- A fresh label may be put anywhere among the labels of code that comes with later numbers. -/
theorem insert (stem : String) (hstem : stem ∈ stems)
    (h : Numbered { s with fresh := s.fresh + 1 } code s₁) (before after : List Label)
    (hcode : defined code = before ++ after)
    (hmore : defined more = before ++ freshLabel (txt stem) (s.fresh + 1) :: after) :
    Numbered s more s₁ := by
  have hle : s.fresh + 1 ≤ s₁.fresh := h.le
  refine ⟨by omega, ?_, fun k => ?_⟩
  · have hfresh := h.fresh
    rw [hcode, List.forall_mem_append] at hfresh
    rw [hmore, List.forall_mem_append, List.forall_mem_cons]
    exact ⟨hfresh.1, ⟨stem, hstem, _, rfl⟩, hfresh.2⟩
  · have hk := h.count k
    rw [hcode, labelCount_append] at hk
    rw [hmore, labelCount_append, labelCount_cons]
    dsimp only at hk
    split_ifs at hk ⊢ <;> omega

/-- No label is defined twice. -/
theorem nodup (h : Numbered s code s₁) : (defined code).Nodup := by
  classical
  rw [List.nodup_iff_count_le_one]
  intro l
  by_cases hl : l ∈ defined code
  · obtain ⟨stem, -, k, rfl⟩ := h.fresh l hl
    have hcount : (defined code).count (freshLabel (txt stem) k) ≤ labelCount k (defined code) := by
      refine List.countP_mono_left fun l' _ hl' => ?_
      rw [beq_iff_eq.1 hl']
      exact decide_eq_true ⟨txt stem, rfl⟩
    refine Nat.le_trans hcount (Nat.le_trans (h.count k) ?_)
    split <;> omega
  · rw [List.count_eq_zero_of_not_mem hl]
    omega

/-- Labels that do not end with a digit are not defined. -/
theorem notMem (h : Numbered s code s₁) {l : Label} (hl : l.getLast?.all Byte.isDigit = false) :
    l ∉ defined code := by
  intro hmem
  obtain ⟨stem, -, k, rfl⟩ := h.fresh l hmem
  exact freshLabel_ne hl _ k rfl

end Numbered

/-! ### The code of expressions and statements -/

/-- All that the computation emits is numbered. -/
def Emit.Numbers {α : Type} (x : Emit α) : Prop :=
  ∀ s, Emit.All x s fun _ code s' => Numbered s code s'

namespace Emit

variable {α β : Type}

@[simp] theorem Numbers.bind {x : Emit α} {f : α → Emit β} (hx : Numbers x)
    (hf : ∀ a, Numbers (f a)) : Numbers (x >>= f) := by
  intro s
  rw [all_bind]
  exact fun a code s₁ h b more s₂ h' => (hx s a code s₁ h).append (hf a s₁ b more s₂ h')

@[simp] theorem Numbers.pure (a : α) : Numbers (pure a : Emit α) := by
  intro s
  rw [all_pure]
  exact .of_none rfl rfl

@[simp] theorem Numbers.instr (i : Instr) (c : String) : Numbers (instr i c) := by
  intro s
  rw [Emit.instr, all_items]
  exact .of_none rfl rfl

@[simp] theorem Numbers.instrOf (i : Instr) (c : String) (x : Name) : Numbers (instrOf i c x) := by
  intro s
  rw [Emit.instrOf, all_items]
  exact .of_none rfl rfl

@[simp] theorem Numbers.fail (e : CodegenFault) : Numbers (fail e : Emit α) :=
  fun _ => all_fail e

@[simp] theorem Numbers.need (a? : Option α) (e : CodegenFault) : Numbers (need a? e) := by
  intro s
  rw [all_need]
  exact fun _ _ => .of_none rfl rfl

@[simp] theorem Numbers.ofExcept (r : Except CodegenFault α) : Numbers (ofExcept r) := by
  intro s
  rw [all_ofExcept]
  exact fun _ _ => .of_none rfl rfl

@[simp] theorem Numbers.intConstant (n : Int) : Numbers (intConstant n) := by
  intro s
  rw [all_intConstant]
  exact .of_none rfl rfl

@[simp] theorem Numbers.strConstant (v : Bytes) : Numbers (strConstant v) := by
  intro s
  rw [all_strConstant]
  exact .of_none rfl rfl

@[simp] theorem Numbers.push (r : Reg) (c : String) : Numbers (push r c) := by
  simp [Emit.push, addi, sw]

@[simp] theorem Numbers.pop (r : Reg) : Numbers (pop r) := by
  simp [Emit.pop, addi, lw]

@[simp] theorem Numbers.popDiscard (n : Nat) : Numbers (popDiscard n) := by
  simp [Emit.popDiscard, addi]

theorem Numbers.forM {γ : Type} {f : γ → Emit Unit} (hf : ∀ c, Numbers (f c)) :
    ∀ cs : List γ, Numbers (cs.forM f)
  | [] => by simp
  | c :: cs => by
    show Numbers (f c >>= fun _ => cs.forM f)
    exact .bind (hf c) fun _ => Numbers.forM hf cs

end Emit

open Emit

namespace Codegen

@[simp] theorem frameWalk_numbers (c : Context) (hops : Int) : Numbers (frameWalk c hops) := by
  unfold frameWalk
  split
  · simp [mv]
  · exact .bind (by simp [lw]) fun _ => .forM (fun f => by simp [lw]) _

@[simp] theorem loadVariable_numbers (c : Context) (x : Name) : Numbers (loadVariable c x) := by
  unfold loadVariable
  split
  · simp
  · split <;> simp

@[simp] theorem storeVariable_numbers (c : Context) (x : Name) : Numbers (storeVariable c x) := by
  unfold storeVariable
  split
  · simp
  · split <;> simp

@[simp] theorem pushStaticLink_numbers (c : Context) (n : Nat) : Numbers (pushStaticLink c n) := by
  simp [pushStaticLink]

@[simp] theorem box_numbers (value target : Option Ty) : Numbers (box value target) := by
  unfold box
  split_ifs <;> simp [jal]

@[simp] theorem comparison_numbers (c : Cond) (r₁ r₂ : Reg) (text : String) :
    Numbers (comparison c r₁ r₂ text) := by
  intro s
  simp only [comparison, branch, li, j, label, Emit.instr, all_bind, all_fresh, all_items,
    List.nil_append, List.cons_append]
  have hend : Numbered { s with fresh := s.fresh + 1 }
      [.label (freshLabel (txt "cmp_end") (s.fresh + 1 + 1)) []]
      { s with fresh := s.fresh + 1 + 1 } :=
    .insert "cmp_end" (by decide) (.of_none rfl rfl) [] [] defined_nil rfl
  exact .insert "cmp_true" (by decide) hend [] _ rfl (by simp)

@[simp] theorem floorDiv_numbers : Numbers floorDiv := by
  intro s
  simp only [floorDiv, beqz, branch, addi, mv, label, Emit.instr, all_bind, all_fresh, all_items,
    List.nil_append, List.cons_append]
  exact .insert "divmod_end" (by decide) (.of_none rfl rfl) [] [] defined_nil (by simp)

@[simp] theorem floorMod_numbers : Numbers floorMod := by
  intro s
  simp only [floorMod, beqz, branch, add, mv, label, Emit.instr, all_bind, all_fresh, all_items,
    List.nil_append, List.cons_append]
  exact .insert "divmod_end" (by decide) (.of_none rfl rfl) [] [] defined_nil (by simp)

@[simp] theorem literal_numbers (l : Lit) : Numbers (literal l) := by
  cases l <;> simp [literal, li, mv, la]

theorem asType_numbers {e : Expr} {code : Emit Unit} (h : Numbers code) (target : Option Ty) :
    Numbers (asType e code target) := by
  unfold asType
  split
  · exact h
  · split <;> simp [la, h]

theorem operands_numbers {l r : Emit Unit} (hl : Numbers l) (hr : Numbers r) :
    Numbers (operands l r) := by
  unfold operands
  exact .bind hl fun _ => .bind (by simp) fun _ => .bind hr fun _ => by simp

theorem runtimeCall_numbers (routine : String) {l r : Emit Unit} (hl : Numbers l)
    (hr : Numbers r) : Numbers (runtimeCall routine l r) := by
  unfold runtimeCall
  exact .bind hl fun _ => .bind (by simp) fun _ => .bind hr fun _ => by simp [jal]

theorem concatOperand_numbers (result elem : Option Ty) {code : Emit Unit} (h : Numbers code) :
    Numbers (concatOperand result elem code) := by
  unfold concatOperand
  refine .bind h fun _ => .bind (by simp) fun _ => ?_
  split_ifs <;> simp [la]

theorem concat_numbers (result left right : Option Ty) {l r : Emit Unit} (hl : Numbers l)
    (hr : Numbers r) : Numbers (concat result left right l r) := by
  unfold concat
  refine .bind (concatOperand_numbers _ _ hl) fun _ => ?_
  exact .bind (concatOperand_numbers _ _ hr) fun _ => by simp [jal]

/-- Code with a test, two branches, a label before the second and one behind it. -/
theorem ifElse_numbered {s s' : EmitState} {test yes no : List Item} {i i' : Instr}
    {c c' : Bytes} {otherwise done : String} (hotherwise : otherwise ∈ stems) (hdone : done ∈ stems)
    (h : Numbered { s with fresh := s.fresh + 1 + 1 } (test ++ yes ++ no) s') :
    Numbered s (test ++ (.instr i c :: (yes ++ (.instr i' c' ::
      .label (freshLabel (txt otherwise) (s.fresh + 1)) [] :: (no ++
        [.label (freshLabel (txt done) (s.fresh + 1 + 1)) []]))))) s' := by
  have hend : Numbered { s with fresh := s.fresh + 1 }
      (test ++ yes ++ no ++ [.label (freshLabel (txt done) (s.fresh + 1 + 1)) []]) s' :=
    .insert done hdone h _ [] (List.append_nil _).symm (by simp)
  exact .insert otherwise hotherwise hend (defined (test ++ yes))
    (defined no ++ [freshLabel (txt done) (s.fresh + 1 + 1)]) (by simp) (by simp)

/-- A fresh label, some code, and a label behind it. -/
theorem shortCut_numbers {l r : Emit Unit} (hl : Numbers l) (hr : Numbers r)
    {jump : Label → Emit Unit} (hjump : ∀ done, Numbers (jump done)) {stem : String}
    (hstem : stem ∈ stems) : Numbers (do
      let done ← fresh stem
      l
      jump done
      r
      label done) := by
  intro s
  simp only [label, all_bind, all_fresh, all_items, List.nil_append]
  intro _ code₁ s₁ h₁ _ code₂ s₂ h₂ _ code₃ s₃ h₃
  have h := ((hl _ _ _ _ h₁).append (hjump _ _ _ _ _ h₂)).append (hr _ _ _ _ h₃)
  exact .insert stem hstem h _ [] (List.append_nil _).symm (by simp)

theorem binary_numbers (op : BinOp) (result left right : Option Ty) {l r : Emit Unit}
    (hl : Numbers l) (hr : Numbers r) : Numbers (binary op result left right l r) := by
  have hops := operands_numbers hl hr
  cases op <;> simp only [binary]
  case and => exact shortCut_numbers hl hr (fun done => by simp [beqz]) (by decide)
  case or => exact shortCut_numbers hl hr (fun done => by simp) (by decide)
  case add =>
    split_ifs
    · exact runtimeCall_numbers _ hl hr
    · exact .bind hops fun _ => by simp [add]
    · exact concat_numbers _ _ _ hl hr
  case eq =>
    split_ifs
    · exact runtimeCall_numbers _ hl hr
    · exact .bind hops fun _ => by simp
  case ne =>
    split_ifs
    · exact runtimeCall_numbers _ hl hr
    · exact .bind hops fun _ => by simp
  all_goals exact .bind hops fun _ => by simp

theorem elementAddress_numbers {seq i : Emit Unit} (hseq : Numbers seq) (hi : Numbers i) :
    Numbers (elementAddress seq i) := by
  unfold elementAddress
  refine .bind (operands_numbers hseq hi) fun _ => ?_
  repeat' refine .bind ?_ fun _ => ?_
  all_goals simp [beqz, lw, branch, slli, add]

@[simp] theorem construct_numbers (c : Context) (l : ClassLayout) : Numbers (construct c l) := by
  unfold construct
  repeat' refine .bind ?_ fun _ => ?_
  all_goals simp [la, lw, sw, addi]

@[simp] theorem callLabel_numbers (l : Label) (x : Name) (n : Nat) :
    Numbers (callLabel l x n) := by
  simp [callLabel]

end Codegen

open Codegen

mutual

theorem Expr.gen_numbers (c : Codegen.Context) : ∀ e : Expr, Numbers (e.gen c)
  | .lit l => by simp [Expr.gen]
  | .name id => by simp [Expr.gen]
  | .unary m op e => by
    simp only [Expr.gen]
    refine .bind (e.gen_numbers c) fun _ => ?_
    cases op <;> simp
  | .binary m l op r => by
    simp only [Expr.gen]
    exact binary_numbers _ _ _ _ (l.gen_numbers c) (r.gen_numbers c)
  | .cond m test yes no => by
    have hyes := asType_numbers (e := yes) (yes.gen_numbers c) m.type?
    have hno := asType_numbers (e := no) (no.gen_numbers c) m.type?
    intro s
    simp only [Expr.gen, label, beqz, j, Emit.instr, all_bind, all_fresh, all_items,
      List.nil_append]
    intro _ code₁ s₁ h₁ _ code₂ s₂ h₂ _ code₃ s₃ h₃
    have h := ((test.gen_numbers c _ _ _ _ h₁).append (hyes _ _ _ _ h₂)).append (hno _ _ _ _ h₃)
    exact ifElse_numbered (by decide) (by decide) h
  | .list m elems => by
    simp only [Expr.gen]
    refine .bind (Expr.genElems_numbers c _ elems) fun _ => ?_
    repeat' refine .bind ?_ fun _ => ?_
    all_goals simp [li, jal, sw, addi]
  | .index m seq i => by
    simp only [Expr.gen]
    split
    · exact runtimeCall_numbers _ (seq.gen_numbers c) (i.gen_numbers c)
    · exact .bind (elementAddress_numbers (seq.gen_numbers c) (i.gen_numbers c)) fun _ => by
        simp [lw]
  | .member m object id => by
    simp only [Expr.gen]
    refine .bind (object.gen_numbers c) fun _ => ?_
    repeat' refine .bind ?_ fun _ => ?_
    all_goals simp [beqz]
  | .call m id args => by
    have hargs := fun ts => Expr.genArgs_numbers c ts args
    simp only [Expr.gen]
    split
    · exact .bind (by simp) fun _ => .bind (by simp) fun ty => .bind (hargs _) fun _ => by simp
    · split
      · simp
      · exact .bind (by simp) fun _ => .bind (by simp) fun _ => .bind (by simp) fun ty =>
          .bind (hargs _) fun _ => by simp
  | .methodCall m method object id args => by
    have hargs := fun ts => Expr.genArgs_numbers c ts args
    have hobject := fun t => asType_numbers (e := object) (object.gen_numbers c) t
    simp only [Expr.gen]
    refine .bind (by simp) fun layout => .bind (by simp) fun ty => .bind (by simp) fun _ =>
      .bind (by simp) fun self => .bind (hobject _) fun _ => .bind (by simp) fun _ =>
      .bind (hargs _) fun _ => ?_
    repeat' refine .bind ?_ fun _ => ?_
    all_goals simp [lw, beqz]

theorem Expr.genElems_numbers (c : Codegen.Context) (elem : Option Ty) :
    ∀ es : List Expr, Numbers (Expr.genElems c elem es)
  | [] => by simp [Expr.genElems]
  | e :: es => by
    simp [Expr.genElems, asType_numbers (e.gen_numbers c), Expr.genElems_numbers c elem es]

theorem Expr.genArgs_numbers (c : Codegen.Context) :
    ∀ (ts : List Ty) (es : List Expr), Numbers (Expr.genArgs c ts es)
  | ts, [] => by simp [Expr.genArgs]
  | [], e :: es => by simp [Expr.genArgs]
  | t :: ts, e :: es => by
    simp [Expr.genArgs, asType_numbers (e.gen_numbers c), Expr.genArgs_numbers c ts es]

end

namespace Codegen

theorem store_numbers (c : Context) (e : Expr) : Numbers (store c e) := by
  cases e with
  | name id => simp [store]
  | member m object id =>
    unfold store
    refine .bind (by simp) fun _ => .bind (object.gen_numbers c) fun _ => ?_
    repeat' refine .bind ?_ fun _ => ?_
    all_goals simp [beqz, lw, addi]
  | index m seq i =>
    unfold store
    refine .bind (by simp) fun _ => ?_
    exact .bind (elementAddress_numbers (seq.gen_numbers c) (i.gen_numbers c)) fun _ => by
      simp [sw]
  | _ => simp [store]

theorem storeAll_numbers (c : Context) (value : Option Ty) :
    ∀ es : List Expr, Numbers (storeAll c value es)
  | [] => by simp [storeAll]
  | e :: es => by
    unfold storeAll
    exact .bind (by simp [lw]) fun _ => .bind (by simp) fun _ => .bind (store_numbers c e) fun _ =>
      storeAll_numbers c value es

theorem assign_numbers (c : Context) (targets : List Expr) (value : Expr) :
    Numbers (assign c targets value) := by
  unfold assign
  refine .bind (value.gen_numbers c) fun _ => ?_
  split
  · exact .bind (by simp) fun _ => store_numbers c _
  · exact .bind (by simp) fun _ => .bind (storeAll_numbers c _ _) fun _ => by simp

theorem conditional_numbers {test yes : Emit Unit} {no? : Option (Emit Unit)}
    (htest : Numbers test) (hyes : Numbers yes) (hno : ∀ no, no? = some no → Numbers no) :
    Numbers (conditional test yes no?) := by
  unfold conditional
  refine .bind htest fun _ s => ?_
  cases no? with
  | none =>
    simp only [label, beqz, Emit.instr, all_bind, all_fresh, all_items, List.nil_append]
    intro _ code₁ s₁ h₁
    have h := hyes _ _ _ _ h₁
    exact .insert "if_end" (by decide) h _ [] (List.append_nil _).symm (by simp)
  | some no =>
    simp only [label, beqz, j, Emit.instr, all_bind, all_fresh, all_items, List.nil_append]
    intro _ code₁ s₁ h₁ _ code₂ s₂ h₂
    have h := (hyes _ _ _ _ h₁).append (hno no rfl _ _ _ _ h₂)
    -- the label in the middle has the later number
    have helse : Numbered { s with fresh := s.fresh + 1 }
        (code₁ ++ .label (freshLabel (txt "if_else") (s.fresh + 1 + 1)) [] :: code₂) s₂ :=
      .insert "if_else" (by decide) h (defined code₁) (defined code₂) (by simp) (by simp)
    exact .insert "if_end" (by decide) helse _ [] (List.append_nil _).symm (by simp)

theorem whileLoop_numbers {test body : Emit Unit} (htest : Numbers test) (hbody : Numbers body) :
    Numbers (whileLoop test body) := by
  intro s
  simp only [whileLoop, label, beqz, j, Emit.instr, all_bind, all_fresh, all_items,
    List.nil_append]
  intro _ code₁ s₁ h₁ _ code₂ s₂ h₂
  have h := (htest _ _ _ _ h₁).append (hbody _ _ _ _ h₂)
  have hexit : Numbered { s with fresh := s.fresh + 1 }
      (code₁ ++ code₂ ++ [.label (freshLabel (txt "while_exit") (s.fresh + 1 + 1)) []]) s₂ :=
    .insert "while_exit" (by decide) h _ [] (List.append_nil _).symm (by simp)
  exact .insert "while_check" (by decide) hexit [] _ (List.nil_append _).symm (by simp)

theorem nextElement_numbers (t : Option Ty) : Numbers (nextElement t) := by
  unfold nextElement
  split
  · exact .bind (by simp) fun _ => .bind (by simp) fun _ => by simp [jal]
  · simp [slli, add, lw]

theorem forLoop_numbers (c : Context) (slots : Int × Int) (id : Ident) (t : Option Ty)
    {iterable body : Emit Unit} (hiterable : Numbers iterable) (hbody : Numbers body) :
    Numbers (forLoop c slots id t iterable body) := by
  intro s
  simp only [forLoop, label, beqz, j, lw, sw, addi, branch, Emit.instr, all_bind, all_fresh,
    all_items, List.nil_append]
  intro _ code₁ s₁ h₁ _ code₂ s₂ h₂ _ code₃ s₃ h₃ _ code₄ s₄ h₄ _ code₅ s₅ h₅
  have h := ((((hiterable _ _ _ _ h₁).append (nextElement_numbers t _ _ _ _ h₂)).append
    (box_numbers _ _ _ _ _ _ h₃)).append (storeVariable_numbers c _ _ _ _ _ h₄)).append
    (hbody _ _ _ _ h₅)
  have hexit : Numbered { s with fresh := s.fresh + 1 } (code₁ ++ code₂ ++ code₃ ++ code₄ ++
      code₅ ++ [.label (freshLabel (txt "for_exit") (s.fresh + 1 + 1)) []]) s₅ :=
    .insert "for_exit" (by decide) h _ [] (List.append_nil _).symm (by simp)
  exact .insert "for_check" (by decide) hexit (defined code₁) (defined code₂ ++ defined code₃ ++
    defined code₄ ++ defined code₅ ++ [freshLabel (txt "for_exit") (s.fresh + 1 + 1)]) (by simp)
    (by simp)

theorem initLocals_numbers (c : Context) (table : Bindings Entry) :
    ∀ ds : List LocalDecl, Numbers (initLocals c table ds)
  | [] => by simp [initLocals]
  | .var d :: ds => by
    unfold initLocals
    exact .bind (by simp) fun _ => .bind (by simp) fun _ => .bind
      (asType_numbers (literal_numbers _) _) fun _ => .bind (by simp) fun _ =>
      initLocals_numbers c table ds
  | .global _ _ :: ds => by unfold initLocals; exact initLocals_numbers c table ds
  | .nonlocal _ _ :: ds => by unfold initLocals; exact initLocals_numbers c table ds
  | .func _ :: ds => by unfold initLocals; exact initLocals_numbers c table ds

end Codegen

mutual

theorem Stmt.gen_numbers (c : Codegen.Context) : ∀ (k : Nat) (s : Stmt), Numbers (s.gen c k)
  | k, .expr _ e => by simpa only [Stmt.gen] using e.gen_numbers c
  | k, .assign _ targets value => by
    simpa only [Stmt.gen] using assign_numbers c targets value
  | k, .ite _ test yes no => by
    simp only [Stmt.gen]
    refine conditional_numbers (test.gen_numbers c) (Stmt.genAll_numbers c k yes) ?_
    intro code hcode
    split at hcode
    · cases hcode
    · cases hcode
      exact Stmt.genAll_numbers c _ no
  | k, .loop _ test body => by
    simp only [Stmt.gen]
    exact whileLoop_numbers (test.gen_numbers c) (Stmt.genAll_numbers c k body)
  | k, .each _ id iterable body => by
    simp only [Stmt.gen]
    exact .bind (by simp) fun slots =>
      forLoop_numbers c slots id _ (iterable.gen_numbers c) (Stmt.genAll_numbers c (k + 1) body)
  | k, .ret _ none => by simp [Stmt.gen, mv, j]
  | k, .ret _ (some e) => by
    simp only [Stmt.gen]
    exact .bind (asType_numbers (e.gen_numbers c) _) fun _ => by simp [j]

theorem Stmt.genAll_numbers (c : Codegen.Context) :
    ∀ (k : Nat) (ss : List Stmt), Numbers (Stmt.genAll c k ss)
  | k, [] => by simp [Stmt.genAll]
  | k, s :: ss => by
    simp only [Stmt.genAll]
    exact .bind (s.gen_numbers c k) fun _ => Stmt.genAll_numbers c _ ss

end

end ChocoRv
