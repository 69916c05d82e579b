import ChocoRv.Proofs.CallCode
import ChocoRv.Proofs.Representations
import ChocoRv.Proofs.StackWrites

/-!
# Conversions

The word of a value goes into a place as it is, or a routine makes an object of it first. Which of
these it is depends on the types of the value and of the place only (`Ty.Conversion`), and the two
cases exclude each other. A literal may be the address of a constant instead. What stores a word
into a variable, an attribute or an element of a list takes it from `a0` as it is there, and two
lists that are concatenated have the routine for their elements behind them on the stack.
-/

namespace ChocoRv

open Asm Codegen Emit

/-- The code is emitted by `x` in some state. -/
def Emit.Produces (x : Emit Unit) (code : List Item) : Prop := ∃ s s', x s = .ok ((), code, s')

/-! ### Types -/

/-- The routine that makes an object of a raw word of the type. -/
def Ty.boxing? (t : Ty) : Option Label :=
  if t = .int then some (txt "makeint") else if t = .bool then some (txt "makebool") else none

theorem Ty.boxing?_eq_none {t : Ty} : t.boxing? = none ↔ t.isUnboxed = false := by
  rw [boxing?, isUnboxed, Bool.or_eq_false_iff]
  split_ifs <;> simp_all

/-- The code that makes the word in `a0` for a value of type `v` one for a place of type `t`: none
if it is one already, else the call that makes an object of it. -/
inductive Ty.Conversion (v t : Ty) : List Item → Prop
  | unchanged (h : t.isUnboxed = true ∨ v.isUnboxed = false) : Conversion v t []
  | routine {l : Label} {text : Bytes} (ht : t.isUnboxed = false) (hl : v.boxing? = some l) :
    Conversion v t [.instr (.jal l) text]

/-- The code converts a word on its way into a place, and the types of both are known and go
together. -/
def Converts (value? place? : Option Ty) (code : List Item) : Prop :=
  ∃ v t, value? = some v ∧ place? = some t ∧ v.GoesInto t ∧ v.Conversion t code

/-- The word of `None` is as it is one for any place but those for raw words. -/
theorem converts_none {t : Ty} (h : t.isUnboxed = false) :
    Converts (some .noneType) (some t) [] := by
  refine ⟨_, _, rfl, rfl, ⟨fun hunboxed => ?_, fun a b hlist => ?_⟩, .unchanged (.inr rfl)⟩
  · exact absurd (h.symm.trans hunboxed) Bool.false_ne_true
  · cases hlist

/-- The code leaves the value of an expression in `a0` as the place needs it: the word of the value
and right behind it what converts it, or the address of the constant for a literal. -/
inductive Expr.Delivered (c : Context) (pool : Pool) (e : Expr) (place? : Option Ty) :
    List Item → Prop
  | converted {word conv : List Item} (hword : (e.gen c).Produces word)
      (hconv : Converts e.type? place? conv) : Delivered c pool e place? (word ++ conv)
  | int {m : Mark} {n : Int} {t : Ty} {k : Nat} {text : Bytes} (he : e = .lit ⟨m, .int n⟩)
      (htype : e.type? = some .int) (hplace : place? = some t) (ht : t.isUnboxed = false)
      (hk : (n, k) ∈ pool.ints) :
    Delivered c pool e place? [.instr (.la .a0 (Pool.label k)) text]
  | bool {m : Mark} {b : Bool} {t : Ty} {text : Bytes} (he : e = .lit ⟨m, .bool b⟩)
      (htype : e.type? = some .bool) (hplace : place? = some t) (ht : t.isUnboxed = false) :
    Delivered c pool e place? [.instr (.la .a0 (Pool.boolLabel b)) text]

/-- Values that are pushed one after the other, each as the place for it needs it. -/
inductive Expr.Passed (c : Context) (pool : Pool) :
    List Ty → List Expr → List (List Item × Bytes) → Prop
  | nil : Passed c pool [] [] []
  | cons {t : Ty} {ts : List Ty} {e : Expr} {es : List Expr} {own : List Item} {text : Bytes}
      {rest : List (List Item × Bytes)} (h : e.Delivered c pool (some t) own)
      (hrest : Passed c pool ts es rest) : Passed c pool (t :: ts) (e :: es) ((own, text) :: rest)

section
variable {c : Context} {pool pool' : Pool} {e : Expr} {place? : Option Ty} {own : List Item}

theorem Expr.Delivered.within (h : e.Delivered c pool place? own) (hpool : pool.Within pool') :
    e.Delivered c pool' place? own := by
  cases h with
  | converted hword hconv => exact .converted hword hconv
  | int he htype hplace ht hk => exact .int he htype hplace ht (hpool.ints hk)
  | bool he htype hplace ht => exact .bool he htype hplace ht

theorem Expr.Passed.within {ts : List Ty} {es : List Expr} {args : List (List Item × Bytes)}
    (h : Passed c pool ts es args) (hpool : pool.Within pool') : Passed c pool' ts es args := by
  induction h with
  | nil => exact .nil
  | cons h _ ih => exact .cons (h.within hpool) ih

theorem Expr.Passed.length_eq {ts : List Ty} {es : List Expr} {args : List (List Item × Bytes)}
    (h : Passed c pool ts es args) : args.length = es.length := by
  induction h with
  | nil => rfl
  | cons _ _ ih => rw [List.length_cons, List.length_cons, ih]

end

section
variable {c : Context} {v t : Ty} {s : EmitState}

theorem box_conversion (v t : Ty) :
    All (box (some v) (some t)) s fun _ code _ => v.Conversion t code := by
  unfold box
  simp only [unboxed, Option.any_some, Option.some.injEq]
  cases ht : t.isUnboxed with
  | true =>
    rw [if_pos rfl, all_pure]
    exact .unchanged (.inl ht)
  | false =>
    rw [if_neg Bool.false_ne_true]
    split_ifs with hint hbool
    · exact (all_items _).2 (.routine ht (by rw [hint]; rfl))
    · exact (all_items _).2 (.routine ht (by rw [hbool]; rfl))
    · rw [all_pure]
      refine .unchanged (.inr (Ty.boxing?_eq_none.1 ?_))
      rw [Ty.boxing?, if_neg hint, if_neg hbool]

theorem box_converts {value? place? : Option Ty} (hv : value? = some v) (ht : place? = some t)
    (hgoes : v.GoesInto t) :
    All (box value? place?) s fun _ code _ => Converts value? place? code := by
  subst hv ht
  exact fun _ code s' h => ⟨v, t, rfl, rfl, hgoes, box_conversion v t _ _ _ h⟩

/-- The value of a typed expression is delivered into a place that it goes into. -/
theorem asType_delivered {env : Typing.Context} {e : Expr} {place? : Option Ty} (he : e.Typed env)
    (hv : e.type? = some v) (ht : place? = some t) (hgoes : v.GoesInto t) :
    All (asType e (e.gen c) place?) s fun _ own s' => e.Delivered c s'.pool place? own := by
  subst ht
  unfold asType
  cases hraw : t.isUnboxed with
  | true =>
    rw [if_pos (show unboxed (some t) = true from hraw)]
    intro _ own s' hown
    have hconv : Converts e.type? (some t) [] :=
      ⟨v, t, hv, rfl, hgoes, .unchanged (.inl hraw)⟩
    have hdelivered : e.Delivered c s'.pool (some t) (own ++ []) := .converted ⟨s, s', hown⟩ hconv
    rwa [List.append_nil] at hdelivered
  | false =>
    rw [if_neg (by simp [unboxed, hraw])]
    split
    · rename_i m n
      simp only [Expr.Typed] at he
      rw [all_bind, all_intConstant, la]
      obtain ⟨k, hlabel, hk⟩ := s.pool.int_mem n
      rw [hlabel]
      exact (all_items _).2 (.int rfl he rfl hraw hk)
    · rename_i m b
      simp only [Expr.Typed] at he
      exact (all_items _).2 (.bool rfl he rfl hraw)
    · rw [all_bind]
      intro _ word s₁ hword _ conv s₂ hconv
      exact .converted ⟨s, s₁, hword⟩ (box_converts hv rfl hgoes _ _ _ hconv)

end

/-! ### Stores -/

/-- The code stores `a0` into a variable. On the way to the frame of the variable nothing but `t0`
changes. -/
inductive Codegen.Context.Stores (c : Context) (x : Name) : List Item → Prop
  | global {l : Label} {text : Bytes} (h : Frame.resolve x c.chain = .global l) :
    Stores c x [.instr (.storeLabel .a0 l .t0) text]
  | near {owner : Frame} {o : Int} {text : Bytes}
      (h : Frame.resolve x c.chain = .slot owner o) (hdepth : owner.depth = c.frame.depth) :
    Stores c x [.instr (.store .sw .a0 .fp o) text]
  | far {owner : Frame} {o : Int} {link : List Item} {text : Bytes}
      (h : Frame.resolve x c.chain = .slot owner o) (hdepth : owner.depth ≠ c.frame.depth)
      (hlink : c.HasLink owner.depth link) (hwalk : Asm.Every Instr.isWalk link) :
    Stores c x (link ++ [.instr (.store .sw .a0 .t0 o) text])

/-- The code between the operands of an element and its address in `a0`. -/
def Codegen.boundsCode : List Item :=
  [.instr (.load .lw .t0 .sp 0) [], .instr (.opImm .addi .sp .sp wordSize) [],
   .instr (.branchZero .beqz .t0 errorNone) [],
   .instr (.load .lw .t1 .t0 valueOffset) (txt "list length"),
   .instr (.branch .blt .a0 .zero errorOOB) [], .instr (.branch .bge .a0 .t1 errorOOB) [],
   .instr (.opImm .slli .a0 .a0 2) [], .instr (.op .add .a0 .a0 .t0) []]

/-- The code stores `a0` into a target. For an attribute or an element the word waits on the stack
as it is. -/
inductive Expr.StoreCode (c : Context) : Expr → List Item → Prop
  | name {id : Ident} {own : List Item} (h : c.Stores id.name own) : StoreCode c (.name id) own
  | member {m : Mark} {object : Expr} {id : Ident} {layout : ClassLayout} {o : Int}
      {code : List Item} (hobject : (object.gen c).Produces code)
      (hlayout : c.layoutOf object.type? = .ok layout) (ho : layout.attrOffset id.name = .ok o) :
    StoreCode c (.member m object id) (pushCode .a0 (txt "value to store") ++ code ++
      [.instr (.branchZero .beqz .a0 errorNone) [], .instr (.load .lw .t0 .sp 0) [],
       .instr (.opImm .addi .sp .sp wordSize) [],
       .instr (.store .sw .t0 .a0 o) (txt "store attribute " ++ id.name)])
  | index {m : Mark} {seq i : Expr} {seqCode iCode : List Item}
      (hseq : (seq.gen c).Produces seqCode) (hi : (i.gen c).Produces iCode) :
    StoreCode c (.index m seq i) (pushCode .a0 (txt "value to store") ++ seqCode ++
      pushCode .a0 (txt "left operand") ++ iCode ++ boundsCode ++
      [.instr (.load .lw .t0 .sp 0) [], .instr (.opImm .addi .sp .sp wordSize) [],
       .instr (.store .sw .t0 .a0 elementsOffset) (txt "store list element")])

section
variable {c : Context} {s : EmitState}

theorem storeVariable_stores (x : Name) :
    All (storeVariable c x) s fun _ own _ => c.Stores x own := by
  unfold storeVariable
  split
  · exact (all_items _).2 (.global ‹_›)
  · split_ifs with hdepth
    · exact (all_items _).2 (.near ‹_› hdepth)
    · rw [all_bind]
      intro _ link s₁ hlink
      exact (all_items _).2 (.far ‹_› hdepth ⟨s, s₁, hlink⟩ (frameWalk_isWalk c _ _ _ _ _ hlink))

theorem store_storeCode (target : Expr) :
    All (store c target) s fun _ own _ => target.StoreCode c own := by
  cases target with
  | name id => exact fun _ own s' h => .name (storeVariable_stores id.name _ _ _ h)
  | member m object id =>
    simp only [store, push, pop, beqz, addi, lw, sw, instr, instrOf, all_bind, all_items,
      all_ofExcept]
    intro _ code s₁ hcode layout hlayout o ho
    have hstore : (Expr.member m object id).StoreCode c _ :=
      .member ⟨_, s₁, hcode⟩ hlayout ho
    simpa [pushCode] using hstore
  | index m seq i =>
    simp only [store, elementAddress, operands, push, pop, beqz, branch, slli, add, addi, lw, sw,
      instr, all_bind, all_items]
    intro _ seqCode s₁ hseq _ iCode s₂ hi
    have hstore : (Expr.index m seq i).StoreCode c _ := .index ⟨_, s₁, hseq⟩ ⟨_, s₂, hi⟩
    simpa [pushCode, boundsCode] using hstore
  | lit | unary | binary | cond | list | call | methodCall => exact all_fail _

end

/-! ### Concatenation -/

namespace Codegen

/-- What stands behind a list with these elements on the stack if the result has those: the routine
that makes objects of the elements, or 0. -/
inductive Converting (elem result : Option Ty) : List Item → Prop
  | none (text : Bytes) (h : unboxed result = true ∨ unboxed elem = false) :
    Converting elem result (pushCode .zero text)
  | routine {a : Ty} {l : Label} (text text' : Bytes) (hr : unboxed result = false)
      (ha : elem = some a) (hl : a.boxing? = some l) :
    Converting elem result (.instr (.la .t0 l) text :: pushCode .t0 text')

/-- The code of an operand leaves the list and the word behind it on the stack. -/
def OperandCode (code : Emit Unit) (elem result : Option Ty) (own : List Item) : Prop :=
  ∃ list text routine, code.Produces list ∧ own = list ++ pushCode .a0 text ++ routine ∧
    Converting elem result routine

theorem concatOperand_code (result elem : Option Ty) (code : Emit Unit) (s : EmitState) :
    All (concatOperand result elem code) s fun _ own _ => OperandCode code elem result own := by
  rw [concatOperand, all_bind]
  intro _ list s₁ hlist
  have hproduces : code.Produces list := ⟨s, s₁, hlist⟩
  rw [all_bind, all_push]
  split_ifs with hnone hint
  · rw [all_push]
    rw [Bool.or_eq_true, Bool.not_eq_true'] at hnone
    exact ⟨list, _, _, hproduces, (List.append_assoc ..).symm, .none _ hnone⟩
  all_goals
    rw [Bool.or_eq_true, Bool.not_eq_true', not_or, Bool.not_eq_true, Bool.not_eq_false] at hnone
    simp only [la, instr, all_bind, all_items, all_push]
  · exact ⟨list, _, _, hproduces, (List.append_assoc ..).symm, .routine _ _ hnone.1 hint rfl⟩
  · obtain ⟨a, rfl, ha⟩ : ∃ a, elem = some a ∧ a.isUnboxed = true := by
      simpa [unboxed, Option.any_eq_true] using hnone.2
    have hbool : a = .bool := by
      rcases Ty.isUnboxed_iff.1 ha with rfl | rfl
      · exact absurd rfl hint
      · rfl
    exact ⟨list, _, _, hproduces, (List.append_assoc ..).symm,
      .routine _ _ hnone.1 (congrArg some hbool) rfl⟩

end Codegen

end ChocoRv
