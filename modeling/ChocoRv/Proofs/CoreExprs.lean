import ChocoRv.Proofs.CoreRuns

/-!
# Code of core expressions

The code of an expression brings the machine to the word of its value, by induction over the
expression. Each operator has its own piece of code; `Implements` is what the induction says of an
operand, and the lemmas below put the pieces together.
-/

namespace ChocoRv.Core

open Asm Rv32 Codegen Emit

/-- The word of a value of the type is in `a0`. -/
def Result (t : Ty) (v : Value) (s : State) : Prop := s.get .a0 = v.word ∧ v.ty = t ∧ v.Fits

/-- The words of two values are in `t0` and `a0`. -/
def Operands (t t' : Ty) (ab : Value × Value) (s : State) : Prop :=
  s.get .t0 = ab.1.word ∧ s.get .a0 = ab.2.word ∧ ab.1.ty = t ∧ ab.1.Fits ∧ ab.2.ty = t' ∧ ab.2.Fits

/-- The code is there and evaluates as `ev` says with at most `depth` words on the stack. -/
def Evaluates {α : Type} (globals : Scope) (x : Emit Unit) (depth : Nat) (post : α → State → Prop)
    (ev : Store → Except Stop α) : Prop :=
  ∀ st, Ok x st fun _ code _ => ∀ {img : Image} {n room : Nat} {σ : Store} {s : State},
    Linked globals img → img.Holds n code → Ready globals img σ room s → depth ≤ room →
      Lands img n code room s post (ev σ)

variable {globals : Scope} {l r : Emit Unit} {t t' : Ty} {d d' : Nat}
  {ev ev' : Store → Except Stop Value}

theorem Evaluates.congr (h : Evaluates globals l d (Result t) ev) (hev : ∀ σ, ev' σ = ev σ) :
    Evaluates globals l d (Result t) ev' := by
  obtain rfl : ev' = ev := funext hev
  exact h

theorem wordSize_cast : ((wordSize : Nat) : Int) = 4 := rfl

theorem operands_evaluates (hl : Evaluates globals l d (Result t) ev)
    (hr : Evaluates globals r d' (Result t') ev') :
    Evaluates globals (operands l r) (max d (d' + 1)) (Operands t t')
      fun σ => do
        let a ← ev σ
        let b ← ev' σ
        return (a, b) := by
  intro st
  simp only [operands, push, pop, addi, sw, lw, Emit.instr, ok_bind, ok_items, wordSize_cast]
  refine (hl st).mono fun _ A st₁ hA => (hr st₁).mono fun _ B st₂ hB => ?_
  intro img n room σ s hlink hcode hready hdepth
  obtain ⟨room, rfl⟩ : ∃ k, room = k + 1 := ⟨room - 1, by omega⟩
  simp only [List.cons_append, List.nil_append] at hcode ⊢
  refine (hA hlink hcode.left hready (by omega)).bind fun a s₁ hkept hres => ?_
  obtain ⟨ha, hta, hfa⟩ := hres
  have hready₁ := hready.kept hlink hkept
  have hB' := hB hlink hcode.right.tail.tail.left (hready₁.pushed hlink .a0) (by omega)
  refine Lands.between (by decide) (by decide) (by decide) hcode.right hready₁.aligned
    (by have := hready.room_lt; omega) (Lands.map hB' (fun b => (a, b))
      (fun ab s' => ab.1 = a ∧ Result t' ab.2 s') fun b s' hb => ⟨rfl, hb⟩) ?_
  rintro ⟨_, b⟩ s₂ ⟨rfl, hb, htb, hfb⟩ htop
  refine ⟨htop.trans ha, ?_, hta, hfa, htb, hfb⟩
  rw [get_popped_of_ne _ (by decide) (by decide)]
  exact hb

/-! ### Comparisons -/

/-- A comparison leaves 1 or 0 in `a0`. -/
theorem comparison_lands (c : Cond) (r₁ r₂ : Reg) (text : String) (st : EmitState) :
    Ok (comparison c r₁ r₂ text) st fun _ code _ => ∀ {img : Image} {n room : Nat} {s : State},
      (defined img.code).Nodup → img.Holds n code →
        Lands img n code room s
          (fun _ s' => s'.get .a0 = ofBool (holds c (s.get r₁) (s.get r₂))) (.ok ()) := by
  simp only [comparison, branch, li, j, label, Emit.instr, ok_bind, ok_fresh, ok_items,
    List.nil_append, List.cons_append]
  intro img n room s hnd hcode
  have hyes := hcode.tail.tail.tail
  have hend := hyes.tail.tail
  have hbranch := Image.Reaches.of_step (hcode.step_branch (s := s))
  have hset : ∀ w, Kept room s (s.set .a0 w) := fun w =>
    .of_mem (sp_set_of_ne s w (by decide)) (State.mem_set ..)
  have ha₀ : ∀ w, (s.set .a0 w).get .a0 = w := fun w => State.get_set_self _ _ _ (by decide)
  cases hb : holds c (s.get r₁) (s.get r₂) with
  | false =>
    rw [hb, if_neg (by decide)] at hbranch
    have hli := Image.Reaches.of_step (hcode.tail.step_effect (s := s) rfl)
    have hj := Image.Reaches.of_step (hcode.tail.tail.step_j (s := s.set .a0 (BitVec.ofInt 32 0)))
    rw [hend.target rfl hnd] at hj
    have hlast := Image.Reaches.of_step (hend.step_label (s := s.set .a0 (BitVec.ofInt 32 0)))
    refine ⟨_, (((hbranch.trans hli).trans hj).trans hlast).mono (by omega), hset _, ?_⟩
    exact ha₀ _
  | true =>
    rw [hb, if_pos rfl, hyes.target rfl hnd] at hbranch
    have hlabel := Image.Reaches.of_step (hyes.step_label (s := s))
    have hli := Image.Reaches.of_step (hyes.tail.step_effect (s := s) rfl)
    have hlast := Image.Reaches.of_step (hend.step_label (s := s.set .a0 (BitVec.ofInt 32 1)))
    refine ⟨_, (((hbranch.trans hlabel).trans hli).trans hlast).mono (by omega), hset _, ?_⟩
    exact ha₀ _

/-! ### Division -/

theorem add_ofInt_neg_one (n : Int) :
    BitVec.ofInt 32 n + BitVec.ofInt 32 (-1) = BitVec.ofInt 32 (n - 1) := by
  rw [Int.sub_eq_add_neg, BitVec.ofInt_add]

/-- A label and what moves a result from `t1` to `a0`. -/
theorem label_mv_reaches {img : Image} {n : Nat} {done : Label} {c c' : Bytes}
    (hcode : img.Holds n [.label done c, .instr (.move .mv .a0 .t1) c']) (room : Nat) (s : State) :
    ∃ s', img.Reaches 2 ⟨.at n, s⟩ ⟨.at (n + 2), s'⟩ ∧ Kept room s s' ∧
      s'.get .a0 = s.get .t1 := by
  have hlabel := Image.Reaches.of_step (hcode.step_label (s := s))
  have hmv := Image.Reaches.of_step (hcode.tail.step_effect (s := s) rfl)
  exact ⟨_, hlabel.trans hmv, .of_mem (sp_set_of_ne _ _ (by decide)) (State.mem_set ..),
    State.get_set_self _ _ _ (by decide)⟩

/-- The end of a division: the result in `t1` is put right if the remainder in `x` is not 0 and
its sign is not that of the divisor. -/
theorem adjust_lands {img : Image} {n : Nat} (room : Nat) {s : State} {x : Reg} {adjust : Instr}
    {done : Label} {c₁ c₂ c₃ c₄ c₅ : Bytes} {k b : Int} {w₀ : Word} (w₁ : Word)
    (hnd : (defined img.code).Nodup)
    (hcode : img.Holds n [.instr (.branchZero .beqz x done) c₁, .instr (.op .xor .t2 x .a0) c₂,
      .instr (.branch .bge .t2 .zero done) c₃, .instr adjust c₄, .label done [],
      .instr (.move .mv .a0 .t1) c₅])
    (hx : s.get x = BitVec.ofInt 32 k) (ha : s.get .a0 = BitVec.ofInt 32 b)
    (ht : s.get .t1 = w₀) (hk : wrap k = k) (hb : wrap b = b)
    (hadjust : ∀ s : State, s.get .a0 = BitVec.ofInt 32 b → s.get .t1 = w₀ →
      img.effect s adjust = some (s.set .t1 w₁)) :
    Lands img n [.instr (.branchZero .beqz x done) c₁, .instr (.op .xor .t2 x .a0) c₂,
      .instr (.branch .bge .t2 .zero done) c₃, .instr adjust c₄, .label done [],
      .instr (.move .mv .a0 .t1) c₅] room s
      (fun _ s' => s'.get .a0 = if k = 0 ∨ (k < 0 ↔ b < 0) then w₀ else w₁) (.ok ()) := by
  have hdone := hcode.tail.tail.tail.tail
  have hzero := Image.Reaches.of_step (hcode.step_branchZero (s := s))
  rw [hx, hdone.target rfl hnd] at hzero
  by_cases hk₀ : k = 0
  · rw [if_pos (by simp [holdsZero, hk₀])] at hzero
    obtain ⟨s', hreach, hkept, ha₀⟩ := label_mv_reaches hdone room s
    refine ⟨s', (hzero.trans hreach).mono (by omega), hkept, ?_⟩
    dsimp only
    rw [ha₀, ht, if_pos (.inl hk₀)]
  have hnz : holdsZero .beqz (BitVec.ofInt 32 k) = false := by
    simpa [holdsZero] using mt (ofInt_eq_zero hk).1 hk₀
  rw [hnz, if_neg (by decide)] at hzero
  obtain ⟨s₁, hs₁⟩ : ∃ s₁, s₁ = s.set .t2 (BitVec.ofInt 32 k ^^^ BitVec.ofInt 32 b) := ⟨_, rfl⟩
  have hxor : img.effect s (.op .xor .t2 x .a0) = some s₁ := by
    rw [Image.effect, hx, ha, evalOp, hs₁]
  have hkept₁ : Kept room s s₁ :=
    hs₁ ▸ .of_mem (sp_set_of_ne _ _ (by decide)) (State.mem_set ..)
  have ht₁ : s₁.get .t1 = w₀ := by rw [hs₁, State.get_set_of_ne _ _ _ _ (by decide), ht]
  have hsign := Image.Reaches.of_step (hcode.tail.tail.step_branch (s := s₁))
  have hholds : holds .bge (s₁.get .t2) (s₁.get .zero) = decide (k < 0 ↔ b < 0) := by
    rw [hs₁, State.get_set_self _ _ _ (by decide), State.get_zero, holds, slt_xor_zero hk hb,
      Bool.not_not]
  rw [hholds, hdone.target rfl hnd] at hsign
  have hfirst := hzero.trans (.of_step (hcode.tail.step_effect hxor))
  by_cases hsame : k < 0 ↔ b < 0
  · rw [if_pos (by simpa using hsame)] at hsign
    obtain ⟨s', hreach, hkept, ha₀⟩ := label_mv_reaches hdone room s₁
    refine ⟨s', ((hfirst.trans hsign).trans hreach).mono (by omega), hkept₁.trans hkept, ?_⟩
    dsimp only
    rw [ha₀, ht₁, if_pos (.inr hsame)]
  · rw [if_neg (by simpa using hsame)] at hsign
    have ha₁ : s₁.get .a0 = BitVec.ofInt 32 b := by
      rw [hs₁, State.get_set_of_ne _ _ _ _ (by decide), ha]
    have hadj := Image.Reaches.of_step (hcode.tail.tail.tail.step_effect (hadjust s₁ ha₁ ht₁))
    have hkept₂ : Kept room s (s₁.set .t1 w₁) :=
      hkept₁.trans (.of_mem (sp_set_of_ne _ _ (by decide)) (State.mem_set ..))
    obtain ⟨s', hreach, hkept, ha₀⟩ := label_mv_reaches hdone room (s₁.set .t1 w₁)
    refine ⟨s', (((hfirst.trans hsign).trans hadj).trans hreach).mono (by omega),
      hkept₂.trans hkept, ?_⟩
    dsimp only
    rw [ha₀, State.get_set_self _ _ _ (by decide), if_neg (by simp [hk₀, hsame])]

/-- What both kinds of division do first: stop if the divisor is 0. -/
theorem divisor_lands {img : Image} {n room : Nat} {s : State} {code : List Item} {c : Bytes}
    {b : Int} {v : Value} (herror : img.target errorDiv = .out errorDiv)
    (hcode : img.Holds n (.instr (.branchZero .beqz .a0 errorDiv) c :: code))
    (hb : s.get .a0 = BitVec.ofInt 32 b) (hfb : wrap b = b)
    (h : b ≠ 0 → Lands img (n + 1) code room s (Result .int) (.ok v)) :
    Lands img n (.instr (.branchZero .beqz .a0 errorDiv) c :: code) room s (Result .int)
      (if b = 0 then .error .divZero else .ok v) := by
  have htest := hcode.step_branchZero (s := s)
  rw [hb, herror] at htest
  by_cases h₀ : b = 0
  · rw [if_pos h₀]
    rw [if_pos (by simp [holdsZero, h₀])] at htest
    exact ⟨s, .of_step htest⟩
  · have hnz : holdsZero .beqz (BitVec.ofInt 32 b) = false := by
      simpa [holdsZero] using mt (ofInt_eq_zero hfb).1 h₀
    rw [hnz, if_neg (by decide)] at htest
    rw [if_neg h₀]
    exact .cons htest (h h₀)

theorem floorDiv_lands (st : EmitState) :
    Ok floorDiv st fun _ code _ => ∀ {img : Image} {n room : Nat} {s : State} {a b : Int},
      (defined img.code).Nodup → img.target errorDiv = .out errorDiv → img.Holds n code →
        s.get .t0 = BitVec.ofInt 32 a → s.get .a0 = BitVec.ofInt 32 b →
        wrap a = a → wrap b = b →
          Lands img n code room s (Result .int) (applyBinary .floorDiv (.int a) (.int b)) := by
  simp only [floorDiv, beqz, branch, addi, mv, label, Emit.instr, ok_bind, ok_fresh, ok_items,
    List.nil_append, List.cons_append]
  intro img n room s a b hnd herror hcode ha hb hfa hfb
  refine divisor_lands herror hcode hb hfb fun h₀ => ?_
  have ha' : ∀ w, (s.set .t1 w).get .a0 = BitVec.ofInt 32 b := fun w => by
    rw [State.get_set_of_ne _ _ _ _ (by decide), hb]
  -- quotient and remainder toward zero
  have hdivrem : img.effects s [.instr (.op .div .t1 .t0 .a0) (txt ""),
      .instr (.op .rem .t2 .t0 .a0) (txt "")] = some ((s.set .t1 (BitVec.ofInt 32 (a.tdiv b))).set
        .t2 (BitVec.ofInt 32 (a.tmod b))) := by
    have ht' : ∀ w, (s.set .t1 w).get .t0 = BitVec.ofInt 32 a := fun w => by
      rw [State.get_set_of_ne _ _ _ _ (by decide), ha]
    simp only [Image.effects, Image.effect, evalOp, Option.bind_some, ha, hb, ht', ha',
      div_ofInt hfa hfb h₀, rem_ofInt hfa hfb h₀]
  obtain ⟨s₁, hs₁⟩ : ∃ s₁, s₁ = (s.set .t1 (BitVec.ofInt 32 (a.tdiv b))).set .t2
    (BitVec.ofInt 32 (a.tmod b)) := ⟨_, rfl⟩
  rw [← hs₁] at hdivrem
  have hkept : Kept room s s₁ := by
    rw [hs₁]
    refine .of_mem ?_ (by simp)
    rw [sp_set_of_ne _ _ (by decide), sp_set_of_ne _ _ (by decide)]
  have hpair : img.Holds (n + 1) [.instr (.op .div .t1 .t0 .a0) (txt ""),
      .instr (.op .rem .t2 .t0 .a0) (txt "")] := hcode.tail.left
  have hfirst := hpair.reaches hdivrem
  refine .of_reaches [_, _] _ hfirst hkept ?_
  have hr : s₁.get .t2 = BitVec.ofInt 32 (a.tmod b) := by
    rw [hs₁, State.get_set_self _ _ _ (by decide)]
  have hb₁ : s₁.get .a0 = BitVec.ofInt 32 b := by
    rw [hs₁, State.get_set_of_ne _ _ _ _ (by decide), ha']
  have hq : s₁.get .t1 = BitVec.ofInt 32 (a.tdiv b) := by
    rw [hs₁, State.get_set_of_ne _ _ _ _ (by decide), State.get_set_self _ _ _ (by decide)]
  have hend := adjust_lands room (BitVec.ofInt 32 (a.tdiv b - 1)) hnd
    hcode.tail.tail.tail hr hb₁ hq (wrap_tmod hfa hfb) hfb ?_
  · refine hend.map (fun _ => Value.int (wrap (a.fdiv b))) _ fun _ s' hs' => ⟨?_, rfl, wrap_wrap _⟩
    rw [hs', Value.word, ofInt_wrap, fdiv_eq_tdiv_sub a h₀]
    split <;> rfl
  · intro s hs hs'
    rw [Image.effect, hs', evalOpImm, add_ofInt_neg_one]

theorem floorMod_lands (st : EmitState) :
    Ok floorMod st fun _ code _ => ∀ {img : Image} {n room : Nat} {s : State} {a b : Int},
      (defined img.code).Nodup → img.target errorDiv = .out errorDiv → img.Holds n code →
        s.get .t0 = BitVec.ofInt 32 a → s.get .a0 = BitVec.ofInt 32 b →
        wrap a = a → wrap b = b →
          Lands img n code room s (Result .int) (applyBinary .mod (.int a) (.int b)) := by
  simp only [floorMod, beqz, branch, add, mv, label, Emit.instr, ok_bind, ok_fresh, ok_items,
    List.nil_append, List.cons_append]
  intro img n room s a b hnd herror hcode ha hb hfa hfb
  refine divisor_lands herror hcode hb hfb fun h₀ => ?_
  have hrem : img.effect s (.op .rem .t1 .t0 .a0) =
      some (s.set .t1 (BitVec.ofInt 32 (a.tmod b))) := by
    rw [Image.effect, evalOp, ha, hb, rem_ofInt hfa hfb h₀]
  have hkept : Kept room s (s.set .t1 (BitVec.ofInt 32 (a.tmod b))) :=
    .of_mem (sp_set_of_ne _ _ (by decide)) (State.mem_set ..)
  refine .of_reaches [_] _ (.of_step (hcode.tail.step_effect hrem)) hkept ?_
  have hr : (s.set .t1 (BitVec.ofInt 32 (a.tmod b))).get .t1 = BitVec.ofInt 32 (a.tmod b) :=
    State.get_set_self _ _ _ (by decide)
  have hb₁ : (s.set .t1 (BitVec.ofInt 32 (a.tmod b))).get .a0 = BitVec.ofInt 32 b := by
    rw [State.get_set_of_ne _ _ _ _ (by decide), hb]
  have hend := adjust_lands room (BitVec.ofInt 32 (a.tmod b + b)) hnd hcode.tail.tail hr hb₁ hr
    (wrap_tmod hfa hfb) hfb ?_
  · refine hend.map (fun _ => Value.int (wrap (a.fmod b))) _ fun _ s' hs' => ⟨?_, rfl, wrap_wrap _⟩
    rw [hs', Value.word, ofInt_wrap, fmod_eq_tmod_add a b]
    split <;> rfl
  · intro s hs hs'
    rw [Image.effect, hs, hs', evalOp, BitVec.ofInt_add]

/-! ### Operators -/

/-- A value of type `int`. -/
theorem Value.eq_int {v : Value} (h : v.ty = .int) : ∃ n, v = .int n := by
  cases v with
  | int n => exact ⟨n, rfl⟩
  | bool b => exact absurd (show Ty.bool = Ty.int from h) (by decide)

theorem Value.eq_bool {v : Value} (h : v.ty = .bool) : ∃ b, v = .bool b := by
  cases v with
  | int n => exact absurd (show Ty.int = Ty.bool from h) (by decide)
  | bool b => exact ⟨b, rfl⟩

/-- An operator whose code follows that of its operands. -/
theorem Evaluates.operator (hl : Evaluates globals l d (Result t) ev)
    (hr : Evaluates globals r d' (Result t') ev') {code : Emit Unit} {t'' : Ty}
    {op : Value → Value → Except Stop Value}
    (hcode : ∀ st, Ok code st fun _ code _ => ∀ {img : Image} {n room : Nat} {s : State}
      {a b : Value}, Linked globals img → img.Holds n code → Operands t t' (a, b) s →
        Lands img n code room s (Result t'') (op a b)) :
    Evaluates globals (do operands l r; code) (max d (d' + 1)) (Result t'')
      (fun σ => do
        let a ← ev σ
        op a (← ev' σ)) := by
  intro st
  rw [ok_bind]
  refine (operands_evaluates hl hr st).mono fun _ A st₁ hA => (hcode st₁).mono fun _ B st₂ hB => ?_
  intro img n room σ s hlink hholds hready hdepth
  have h := (hA hlink hholds.left hready hdepth).bind (f := fun ab => op ab.1 ab.2)
    fun ab s₁ _ hab => hB hlink hholds.right hab
  simpa [bind_assoc] using h

/-- One instruction as the code of an operator on integers. -/
theorem arith_lands {o : Op} {f : Int → Int → Int} (c : String)
    (hop : ∀ a b : Int, evalOp o (BitVec.ofInt 32 a) (BitVec.ofInt 32 b) = BitVec.ofInt 32 (f a b))
    {op : Value → Value → Except Stop Value}
    (happly : ∀ a b : Int, op (.int a) (.int b) = .ok (.int (wrap (f a b)))) (st : EmitState) :
    Ok (Emit.instr (.op o .a0 .t0 .a0) c) st fun _ code _ => ∀ {img : Image} {n room : Nat}
      {s : State} {a b : Value}, Linked globals img → img.Holds n code →
        Operands .int .int (a, b) s → Lands img n code room s (Result .int) (op a b) := by
  simp only [Emit.instr, ok_items]
  rintro img n room s a b hlink hcode ⟨ha, hb, hta, hfa, htb, hfb⟩
  obtain ⟨a, rfl⟩ := Value.eq_int hta
  obtain ⟨b, rfl⟩ := Value.eq_int htb
  rw [happly]
  refine .effects hcode (by simp) rfl (.of_mem (sp_set_of_ne _ _ (by decide)) (State.mem_set ..))
    ⟨?_, rfl, wrap_wrap _⟩
  rw [State.get_set_self _ _ _ (by decide), ha, hb]
  simp only [Value.word, hop, ofInt_wrap]

/-- A comparison as the code of an operator. -/
theorem compare_lands {c : Cond} {r₁ r₂ : Reg} {t : Ty} (text : String)
    {op : Value → Value → Except Stop Value}
    (hop : ∀ (s : State) (a b : Value), Operands t t (a, b) s →
      op a b = .ok (.bool (holds c (s.get r₁) (s.get r₂)))) (st : EmitState) :
    Ok (comparison c r₁ r₂ text) st fun _ code _ => ∀ {img : Image} {n room : Nat}
      {s : State} {a b : Value}, Linked globals img → img.Holds n code →
        Operands t t (a, b) s → Lands img n code room s (Result .bool) (op a b) := by
  refine (comparison_lands c r₁ r₂ text st).mono fun _ code _ h => ?_
  intro img n room s a b hlink hcode hab
  rw [hop s a b hab]
  have h' : Lands img n code room s _ _ := h hlink.unique hcode
  exact h'.map (fun _ => Value.bool (holds c (s.get r₁) (s.get r₂))) _ fun _ s' hs' =>
    ⟨hs', rfl, trivial⟩

/-! ### Branches -/

theorem holdsZero_beqz_ofBool (b : Bool) : holdsZero .beqz (ofBool b) = !b := by
  cases b <;> decide

section
variable {img : Image} {n room : Nat} {s : State} {α : Type} {post : α → State → Prop}
  {res : Except Stop α}

/-- The ways around code that a branch skips. -/
theorem skip_reaches {cond : CondZero} {done : Label} {code : List Item} {c : Bytes}
    (hnd : (defined img.code).Nodup)
    (hcode : img.Holds n (.instr (.branchZero cond .a0 done) c :: (code ++ [.label done []])))
    (s : State) :
    img.Reaches 1 ⟨.at n, s⟩
        ⟨.at (if holdsZero cond (s.get .a0) then n + code.length + 2 else n + 1), s⟩ ∧
      img.Reaches 1 ⟨.at (n + 1 + code.length), s⟩ ⟨.at (n + code.length + 2), s⟩ := by
  have hend := hcode.tail.right
  have hlabel := Image.Reaches.of_step (hend.step_label (s := s))
  rw [show n + 1 + code.length + 1 = n + code.length + 2 by omega] at hlabel
  refine ⟨?_, hlabel⟩
  have hbranch := Image.Reaches.of_step (hcode.step_branchZero (s := s))
  rw [hend.target rfl hnd] at hbranch
  split at hbranch
  · rename_i h
    rw [if_pos h]
    exact (hbranch.trans hlabel).mono (by omega)
  · rename_i h
    rw [if_neg h]
    exact hbranch

/-- A branch to the label at the end of the code, which is taken if `b` is `skip`. -/
theorem shortCut_lands {cond : CondZero} {done : Label} {code : List Item} {c : Bytes}
    {b skip : Bool} {ev : Except Stop Value} (hnd : (defined img.code).Nodup)
    (hcode : img.Holds n (.instr (.branchZero cond .a0 done) c :: (code ++ [.label done []])))
    (hcond : holdsZero cond (ofBool b) = (b == skip)) (hb : s.get .a0 = ofBool b)
    (h : Lands img (n + 1) code room s (Result .bool) ev) :
    Lands img n (.instr (.branchZero cond .a0 done) c :: (code ++ [.label done []])) room s
      (Result .bool) (if b = skip then .ok (.bool skip) else ev) := by
  have hlen : n + (Item.instr (.branchZero cond .a0 done) c :: (code ++ [.label done []])).length =
      n + code.length + 2 := by
    simp only [List.length_cons, List.length_append, List.length_nil]
    omega
  obtain ⟨hbranch, -⟩ := skip_reaches hnd hcode s
  rw [hb, hcond] at hbranch
  by_cases hskip : b = skip
  · subst hskip
    rw [if_pos (by simp)] at hbranch
    rw [if_pos rfl]
    exact ⟨s, hlen ▸ hbranch, .refl s, hb, rfl, trivial⟩
  · rw [if_neg (by simpa using hskip)] at hbranch
    rw [if_neg hskip]
    exact .within hbranch h fun s' => hlen ▸ (skip_reaches hnd hcode s').2

/-- The ways around two branches after a test of `a0`. -/
theorem ifElse_reaches {yes no : List Item} {otherwise done : Label} {c c' : Bytes}
    (hnd : (defined img.code).Nodup)
    (hcode : img.Holds n (.instr (.branchZero .beqz .a0 otherwise) c :: (yes ++
      (.instr (.j done) c' :: .label otherwise [] :: (no ++ [.label done []])))))
    (s : State) :
    (∀ b, s.get .a0 = ofBool b → img.Reaches 1 ⟨.at n, s⟩
        ⟨.at (if b then n + 1 else n + 1 + yes.length + 2), s⟩) ∧
      img.Reaches 1 ⟨.at (n + 1 + yes.length), s⟩ ⟨.at (n + yes.length + no.length + 4), s⟩ ∧
      img.Reaches 1 ⟨.at (n + 1 + yes.length + 2 + no.length), s⟩
        ⟨.at (n + yes.length + no.length + 4), s⟩ := by
  have hrest := hcode.tail.right
  have hend := hrest.tail.tail.right
  have hlast := Image.Reaches.of_step (hend.step_label (s := s))
  rw [show n + 1 + yes.length + 1 + 1 + no.length + 1 = n + yes.length + no.length + 4 by omega]
    at hlast
  refine ⟨fun b hb => ?_, ?_, hlast⟩
  · have hbranch := Image.Reaches.of_step (hcode.step_branchZero (s := s))
    rw [hb, holdsZero_beqz_ofBool, hrest.tail.target rfl hnd] at hbranch
    cases b with
    | true => exact hbranch
    | false => exact (hbranch.trans (.of_step hrest.tail.step_label)).mono (by omega)
  · have hj := Image.Reaches.of_step (hrest.step_j (s := s))
    rw [hend.target rfl hnd] at hj
    exact (hj.trans hlast).mono (by omega)

/-- Two branches after a test of `a0`. -/
theorem ifElse_lands {yes no : List Item} {otherwise done : Label} {c c' : Bytes} {b : Bool}
    (hnd : (defined img.code).Nodup)
    (hcode : img.Holds n (.instr (.branchZero .beqz .a0 otherwise) c :: (yes ++
      (.instr (.j done) c' :: .label otherwise [] :: (no ++ [.label done []])))))
    (hb : s.get .a0 = ofBool b)
    (hyes : b = true → Lands img (n + 1) yes room s post res)
    (hno : b = false → Lands img (n + 1 + yes.length + 2) no room s post res) :
    Lands img n (.instr (.branchZero .beqz .a0 otherwise) c :: (yes ++
      (.instr (.j done) c' :: .label otherwise [] :: (no ++ [.label done []])))) room s post res := by
  have hlen : n + (Item.instr (.branchZero .beqz .a0 otherwise) c :: (yes ++ (.instr (.j done) c' ::
      .label otherwise [] :: (no ++ [.label done []])))).length =
        n + yes.length + no.length + 4 := by
    simp only [List.length_cons, List.length_append, List.length_nil]
    omega
  have hbranch := (ifElse_reaches hnd hcode s).1 b hb
  cases b with
  | true => exact .within hbranch (hyes rfl) fun s' => hlen ▸ (ifElse_reaches hnd hcode s').2.1
  | false => exact .within hbranch (hno rfl) fun s' => hlen ▸ (ifElse_reaches hnd hcode s').2.2

end

/-! ### All expressions -/

/-- The words that the code of an expression needs on the stack. -/
def depth : Expr → Nat
  | .unary _ _ e => depth e
  | .binary _ l op r =>
    match op with
    | .and | .or => max (depth l) (depth r)
    | _ => max (depth l) (depth r + 1)
  | .cond _ test yes no => max (depth test) (max (depth yes) (depth no))
  | .lit _ | .name _ | .list .. | .index .. | .member .. | .call .. | .methodCall .. => 0

def IsScalar (t : Ty) : Prop := t = .int ∨ t = .bool

theorem ne_str_of_scalar {t : Ty} (h : IsScalar t) : t ≠ .str := by
  rcases h with rfl | rfl <;> decide

theorem asType_of_scalar {e : Expr} {code : Emit Unit} {t : Ty} (h : IsScalar t) :
    asType e code (some t) = code := by
  rcases h with rfl | rfl <;> rfl

theorem resolve_top {c : Codegen.Context} (h : c.frame.depth = 0) (x : Name) :
    Frame.resolve x c.chain = .global (globalLabel x) := by
  simp [Codegen.Context.chain, Frame.resolve, h]

theorem literal_evaluates {l : Lit} (hcore : l.isCore = true) (hvalid : l.Valid) :
    IsScalar (Typing.litType l) ∧ Evaluates globals (literal l) 0 (Result (Typing.litType l))
      fun _ => (litValue? l).elim (.error .stuck) .ok := by
  have hli : ∀ (n : Int) (v : Value) (t : Ty), v.word = BitVec.ofInt 32 n → v.ty = t → v.Fits →
      Evaluates globals (li .a0 n) 0 (Result t) fun _ => .ok v := by
    intro n v t hv ht hf st
    simp only [li, Emit.instr, ok_items]
    intro img pos room σ s hlink hcode hready _
    refine .effects hcode (by simp) rfl (.of_mem (sp_set_of_ne _ _ (by decide))
      (State.mem_set ..)) ⟨?_, ht, hf⟩
    rw [State.get_set_self _ _ _ (by decide), hv]
  cases l with
  | int n =>
    refine ⟨.inl rfl, hli n (.int n) .int rfl rfl ?_⟩
    obtain ⟨h₀, h₁⟩ : 0 ≤ n ∧ n ≤ 2147483647 := hvalid
    exact Int.bmod_eq_of_le (by omega) (by omega)
  | bool b => exact ⟨.inr rfl, hli (boolWord b) (.bool b) .bool (by cases b <;> rfl) rfl trivial⟩
  | str | none => simp [Lit.isCore] at hcore

theorem name_evaluates {c : Codegen.Context} (hframe : c.frame.depth = 0) {x : Name}
    (hx : VarType globals x t) : Evaluates globals (loadVariable c x) 0 (Result t)
      fun σ => (σ x).elim (.error .stuck) .ok := by
  intro st
  simp only [loadVariable, resolve_top hframe, instrOf, ok_items]
  intro img n room σ s hlink hcode hready _
  obtain ⟨v, hv, hty, hfits, hword⟩ := hready.holds x t hx
  have hload : s.load (img.address (globalLabel x)) = some v.word := by
    rw [State.load, if_pos (hlink.aligned x t hx), hword]
  rw [hv]
  refine .effects hcode (by simp) ?_ (.of_mem (sp_set_of_ne _ _ (by decide))
    (State.mem_set ..)) ⟨State.get_set_self _ _ _ (by decide), hty, hfits⟩
  simp only [Image.effects, Image.effect, hload, Option.map_some, Option.bind_some]

theorem unary_evaluates {op : UnOp} (h : Evaluates globals l d (Result (Typing.unaryType op)) ev) :
    Evaluates globals (do
        l
        match op with
        | .not => Emit.instr (.opImm .xori .a0 .a0 1) "not"
        | .neg => Emit.instr (.op .sub .a0 .zero .a0) "negate") d (Result (Typing.unaryType op))
      (fun σ => do applyUnary op (← ev σ)) := by
  intro st
  rw [ok_bind]
  refine (h st).mono fun _ A st₁ hA => ?_
  have hset : ∀ {room : Nat} (s : State) (w : Word), Kept room s (s.set .a0 w) := fun s w =>
    .of_mem (sp_set_of_ne _ _ (by decide)) (State.mem_set ..)
  cases op with
  | not =>
    simp only [Emit.instr, ok_items]
    intro img n room σ s hlink hcode hready hdepth
    refine (hA hlink hcode.left hready hdepth).bind fun v s₁ _ ⟨hv, hty, _⟩ => ?_
    obtain ⟨b, rfl⟩ := Value.eq_bool hty
    refine .effects hcode.right (by simp) rfl (hset s₁ _) ⟨?_, rfl, trivial⟩
    rw [State.get_set_self _ _ _ (by decide), hv]
    cases b <;> decide
  | neg =>
    simp only [Emit.instr, ok_items]
    intro img n room σ s hlink hcode hready hdepth
    refine (hA hlink hcode.left hready hdepth).bind fun v s₁ _ ⟨hv, hty, _⟩ => ?_
    obtain ⟨a, rfl⟩ := Value.eq_int hty
    refine .effects hcode.right (by simp) rfl (hset s₁ _) ⟨?_, rfl, wrap_wrap _⟩
    rw [State.get_set_self _ _ _ (by decide), hv, State.get_zero]
    simp only [evalOp, Value.word, ofInt_wrap, BitVec.ofInt_neg]
    exact BitVec.zero_sub _

/-- The operands of an operator on two integers. -/
theorem Operands.ints {s : State} {a b : Value} (h : Operands .int .int (a, b) s) :
    ∃ m n, a = .int m ∧ b = .int n ∧ s.get .t0 = BitVec.ofInt 32 m ∧ s.get .a0 = BitVec.ofInt 32 n ∧
      wrap m = m ∧ wrap n = n := by
  obtain ⟨ha, hb, hta, hfa, htb, hfb⟩ := h
  obtain ⟨m, rfl⟩ := Value.eq_int hta
  obtain ⟨n, rfl⟩ := Value.eq_int htb
  exact ⟨m, n, rfl, rfl, ha, hb, hfa, hfb⟩

theorem ofBool_inj {a b : Bool} : ofBool a = ofBool b ↔ a = b := by
  revert a b
  decide

/-- Two values of one type are equal if their words are. -/
theorem Operands.word_eq {s : State} {a b : Value} {t : Ty} (h : Operands t t (a, b) s) :
    (s.get .t0 == s.get .a0) = decide (a = b) := by
  obtain ⟨ha, hb, hta, hfa, htb, hfb⟩ := h
  dsimp only at ha hb hta hfa htb hfb
  rw [ha, hb]
  cases a with
  | int m =>
    obtain ⟨n, rfl⟩ := Value.eq_int (htb.trans hta.symm)
    rw [Bool.eq_iff_iff, beq_iff_eq, decide_eq_true_eq, Value.int.injEq]
    exact ofInt_inj hfa hfb
  | bool m =>
    obtain ⟨n, rfl⟩ := Value.eq_bool (htb.trans hta.symm)
    rw [Bool.eq_iff_iff, beq_iff_eq, decide_eq_true_eq, Value.bool.injEq]
    exact ofBool_inj

theorem applyBinary_eq {s : State} {a b : Value} {t : Ty} (h : Operands t t (a, b) s) :
    applyBinary .eq a b = .ok (.bool (s.get .t0 == s.get .a0)) := by
  rw [h.word_eq]
  obtain ⟨-, -, hta, -, htb, -⟩ := h
  dsimp only at hta htb
  cases a with
  | int m =>
    obtain ⟨n, rfl⟩ := Value.eq_int (htb.trans hta.symm)
    simp [applyBinary]
  | bool m =>
    obtain ⟨n, rfl⟩ := Value.eq_bool (htb.trans hta.symm)
    simp [applyBinary]

theorem applyBinary_ne {s : State} {a b : Value} {t : Ty} (h : Operands t t (a, b) s) :
    applyBinary .ne a b = .ok (.bool (s.get .t0 != s.get .a0)) := by
  rw [bne, h.word_eq]
  obtain ⟨-, -, hta, -, htb, -⟩ := h
  dsimp only at hta htb
  cases a with
  | int m =>
    obtain ⟨n, rfl⟩ := Value.eq_int (htb.trans hta.symm)
    simp [applyBinary]
  | bool m =>
    obtain ⟨n, rfl⟩ := Value.eq_bool (htb.trans hta.symm)
    simp [applyBinary]

/-- The type of the operands of an operator of the core, from the rule for its operands. -/
theorem operands_of_binaryType {h : Hierarchy} {op : BinOp} {a b t : Ty} (hop : op ≠ .is)
    (ha : IsScalar a) (hb : IsScalar b) (htype : Typing.binaryType h op a b = (t, true)) :
    a = b ∧ IsScalar t ∧ match op with
      | .and | .or => a = .bool ∧ t = .bool
      | .eq | .ne => t = .bool
      | .lt | .gt | .le | .ge => a = .int ∧ t = .bool
      | _ => a = .int ∧ t = .int := by
  cases op with
  | is => exact absurd rfl hop
  | and | or =>
    simp only [Typing.binaryType, Prod.mk.injEq, Bool.and_eq_true, beq_iff_eq] at htype
    obtain ⟨rfl, rfl, rfl⟩ := htype
    exact ⟨rfl, .inr rfl, rfl, rfl⟩
  | sub | mul | floorDiv | mod =>
    simp only [Typing.binaryType, Prod.mk.injEq, Bool.and_eq_true, beq_iff_eq] at htype
    obtain ⟨rfl, rfl, rfl⟩ := htype
    exact ⟨rfl, .inl rfl, rfl, rfl⟩
  | lt | gt | le | ge =>
    simp only [Typing.binaryType, Prod.mk.injEq, Bool.and_eq_true, beq_iff_eq] at htype
    obtain ⟨rfl, rfl, rfl⟩ := htype
    exact ⟨rfl, .inr rfl, rfl, rfl⟩
  | eq | ne =>
    simp only [Typing.binaryType, Prod.mk.injEq, Bool.and_eq_true, beq_iff_eq] at htype
    obtain ⟨rfl, rfl, -⟩ := htype
    exact ⟨rfl, .inr rfl, rfl⟩
  | add =>
    rcases ha with rfl | rfl <;> rcases hb with rfl | rfl <;> cases htype
    exact ⟨rfl, .inl rfl, rfl, rfl⟩

/-- An operator that needs its second operand only if the first is not `skip`. -/
theorem shortCut_evaluates (cond : CondZero) (text : String) (skip : Bool)
    (hcond : ∀ b, holdsZero cond (ofBool b) = (b == skip))
    (hl : Evaluates globals l d (Result .bool) ev)
    (hr : Evaluates globals r d' (Result .bool) ev') :
    Evaluates globals (do
        let done ← fresh "logic_end"
        l
        Emit.instr (.branchZero cond .a0 done) text
        r
        label done) (max d d') (Result .bool)
      (fun σ => do
        let b ← truth (← ev σ)
        if b = skip then return .bool skip else ev' σ) := by
  intro st
  simp only [label, Emit.instr, ok_bind, ok_fresh, ok_items, List.nil_append]
  refine (hl _).mono fun _ A st₁ hA => (hr st₁).mono fun _ B st₂ hB => ?_
  intro img n room σ s hlink hcode hready hdepth
  simp only [List.cons_append, List.nil_append] at hcode ⊢
  refine (hA hlink hcode.left hready (by omega)).bind fun v s₁ hkept ⟨hv, hty, _⟩ => ?_
  obtain ⟨b, rfl⟩ := Value.eq_bool hty
  have hB' := hB hlink hcode.right.tail.left (hready.kept hlink hkept) (by omega)
  exact shortCut_lands hlink.unique hcode.right (hcond b) hv hB'

theorem binary_evaluates {op : BinOp} {a b t : Ty} {h : Hierarchy} {m? : Option Ty} (hop : op ≠ .is)
    (ha : IsScalar a) (hb : IsScalar b) (htype : Typing.binaryType h op a b = (t, true))
    {e e' : Expr} (hl : Evaluates globals l (depth e) (Result a) (eval · e))
    (hr : Evaluates globals r (depth e') (Result b) (eval · e')) (m : Mark) :
    Evaluates globals (binary op m? (some a) (some b) l r) (depth (.binary m e op e')) (Result t)
      (eval · (.binary m e op e')) := by
  obtain ⟨rfl, -, hop'⟩ := operands_of_binaryType hop ha hb htype
  cases op with
  | is => exact absurd rfl hop
  | sub =>
    obtain ⟨rfl, rfl⟩ := hop'
    exact hl.operator hr (arith_lands "" (fun a b => by
      rw [evalOp, Int.sub_eq_add_neg, BitVec.ofInt_add, BitVec.ofInt_neg,
        BitVec.sub_eq_add_neg]) fun a b => rfl)
  | mul =>
    obtain ⟨rfl, rfl⟩ := hop'
    exact hl.operator hr (arith_lands "" (fun a b => by rw [BitVec.ofInt_mul]; rfl) fun a b => rfl)
  | add =>
    obtain ⟨rfl, rfl⟩ := hop'
    exact hl.operator hr (arith_lands "" (fun a b => by rw [BitVec.ofInt_add]; rfl) fun a b => rfl)
  | floorDiv =>
    obtain ⟨rfl, rfl⟩ := hop'
    refine hl.operator hr fun st => (floorDiv_lands st).mono fun _ code _ hcode => ?_
    intro img n room s a b hlink hholds hab
    obtain ⟨m, n, rfl, rfl, hm, hn, hfm, hfn⟩ := hab.ints
    exact hcode hlink.unique hlink.error hholds hm hn hfm hfn
  | mod =>
    obtain ⟨rfl, rfl⟩ := hop'
    refine hl.operator hr fun st => (floorMod_lands st).mono fun _ code _ hcode => ?_
    intro img n room s a b hlink hholds hab
    obtain ⟨m, n, rfl, rfl, hm, hn, hfm, hfn⟩ := hab.ints
    exact hcode hlink.unique hlink.error hholds hm hn hfm hfn
  | lt =>
    obtain ⟨rfl, rfl⟩ := hop'
    refine hl.operator hr (compare_lands "<" fun s a b hab => ?_)
    obtain ⟨m, n, rfl, rfl, hm, hn, hfm, hfn⟩ := hab.ints
    rw [hm, hn, holds, slt_ofInt hfm hfn]
    rfl
  | gt =>
    obtain ⟨rfl, rfl⟩ := hop'
    refine hl.operator hr (compare_lands ">" fun s a b hab => ?_)
    obtain ⟨m, n, rfl, rfl, hm, hn, hfm, hfn⟩ := hab.ints
    rw [hm, hn, holds, slt_ofInt hfn hfm]
    rfl
  | le =>
    obtain ⟨rfl, rfl⟩ := hop'
    refine hl.operator hr (compare_lands "<=" fun s a b hab => ?_)
    obtain ⟨m, n, rfl, rfl, hm, hn, hfm, hfn⟩ := hab.ints
    rw [hm, hn, holds, slt_ofInt hfn hfm, ← decide_not]
    simp only [applyBinary, Int.not_lt]
  | ge =>
    obtain ⟨rfl, rfl⟩ := hop'
    refine hl.operator hr (compare_lands ">=" fun s a b hab => ?_)
    obtain ⟨m, n, rfl, rfl, hm, hn, hfm, hfn⟩ := hab.ints
    rw [hm, hn, holds, slt_ofInt hfm hfn, ← decide_not]
    simp only [applyBinary, Int.not_lt, ge_iff_le]
  | eq =>
    obtain rfl : t = .bool := hop'
    simp only [binary, Option.some.injEq, ne_str_of_scalar ha, decide_false, Bool.and_self,
      Bool.false_eq_true, if_false]
    exact hl.operator hr (compare_lands "==" fun s a b hab => applyBinary_eq hab)
  | ne =>
    obtain rfl : t = .bool := hop'
    simp only [binary, Option.some.injEq, ne_str_of_scalar ha, decide_false, Bool.and_self,
      Bool.false_eq_true, if_false]
    exact hl.operator hr (compare_lands "!=" fun s a b hab => applyBinary_ne hab)
  | and =>
    obtain ⟨rfl, rfl⟩ := hop'
    have hand := shortCut_evaluates .beqz "short-circuit and" false
      (fun b => by cases b <;> decide) hl hr
    refine hand.congr fun σ => ?_
    simp only [eval]
    congr 1; funext v; congr 1; funext b
    cases b <;> rfl
  | or =>
    obtain ⟨rfl, rfl⟩ := hop'
    have hor := shortCut_evaluates .bnez "short-circuit or" true
      (fun b => by cases b <;> decide) hl hr
    exact hor.congr fun σ => rfl

theorem cond_evaluates {e test no : Emit Unit} {evt evn : Store → Except Stop Value} {dt dn : Nat}
    (ht : Evaluates globals test dt (Result .bool) evt) (hy : Evaluates globals e d (Result t) ev)
    (hn : Evaluates globals no dn (Result t) evn) :
    Evaluates globals (do
        let otherwise ← fresh "ifexpr_else"
        let done ← fresh "ifexpr_end"
        test
        beqz .a0 otherwise
        e
        j done
        label otherwise
        no
        label done) (max dt (max d dn)) (Result t)
      (fun σ => do if ← truth (← evt σ) then ev σ else evn σ) := by
  intro st
  simp only [label, beqz, j, Emit.instr, ok_bind, ok_fresh, ok_items, List.nil_append]
  refine (ht _).mono fun _ A st₁ hA => (hy st₁).mono fun _ B st₂ hB =>
    (hn st₂).mono fun _ C st₃ hC => ?_
  intro img n room σ s hlink hcode hready hdepth
  simp only [List.cons_append, List.nil_append] at hcode ⊢
  refine (hA hlink hcode.left hready (by omega)).bind fun v s₁ hkept ⟨hv, hty, _⟩ => ?_
  obtain ⟨b, rfl⟩ := Value.eq_bool hty
  have hready₁ := hready.kept hlink hkept
  refine ifElse_lands hlink.unique hcode.right hv ?_ ?_
  · rintro rfl
    exact hB hlink hcode.right.tail.left hready₁ (by omega)
  · rintro rfl
    exact hC hlink hcode.right.tail.right.tail.tail.left hready₁ (by omega)

/-- Where the code of the top level stands: no frame around it, only variables of the types `int`
and `bool`, and neither of the two stands for the other. -/
structure AtTop (globals : Scope) (c : Codegen.Context) : Prop where
  depth : c.frame.depth = 0
  scalar : ∀ x t, VarType globals x t → IsScalar t
  exact : ∀ a b, IsScalar a → IsScalar b → globals.hierarchy.isCompatible a b = true → a = b

theorem commonAncestor_self (h : Hierarchy) (t : Ty) : h.commonAncestor t t = t := by
  simp [Hierarchy.commonAncestor]

theorem varType_of_get? {x : Name} (h : Env.get? [globals.entries] x = some (.value t)) :
    VarType globals x t := by
  simp only [Env.get?, List.findSome?_cons, List.findSome?_nil] at h
  unfold VarType Bindings.value?
  split at h
  · rename_i entry hentry
    obtain rfl : entry = .value t := by simpa using h
    rw [hentry]
    rfl
  · cases h

/-- The code of every core expression evaluates it. -/
theorem evaluates {c : Codegen.Context} (hc : AtTop globals c) : ∀ {e : Expr},
    e.isCore = true → e.Valid → e.Typed (.ofGlobals globals) → ∀ {t : Ty}, e.type? = some t →
      IsScalar t ∧ Evaluates globals (e.gen c) (depth e) (Result t) (eval · e)
  | .lit l, hcore, hvalid, htyped, t, ht => by
    simp only [Expr.isCore, Expr.Valid, Expr.Typed, Expr.type?, Expr.mark] at hcore hvalid htyped ht
    obtain rfl : t = Typing.litType l.value := Option.some.inj (ht.symm.trans htyped)
    exact literal_evaluates hcore hvalid
  | .name id, _, _, htyped, t, ht => by
    simp only [Expr.Typed, Expr.type?, Expr.mark] at htyped ht
    obtain ⟨t', ht', hget⟩ := htyped
    obtain rfl : t = t' := Option.some.inj (ht.symm.trans ht')
    have hx := varType_of_get? hget
    exact ⟨hc.scalar _ _ hx, name_evaluates hc.depth hx⟩
  | .unary m op e, hcore, hvalid, htyped, t, ht => by
    simp only [Expr.isCore, Expr.Valid, Expr.Typed, Expr.type?, Expr.mark] at hcore hvalid htyped ht
    obtain ⟨htyped, hoperand, hm⟩ := htyped
    obtain rfl : t = Typing.unaryType op := Option.some.inj (ht.symm.trans hm)
    obtain ⟨hscalar, he⟩ := evaluates hc hcore hvalid htyped hoperand
    exact ⟨hscalar, unary_evaluates he⟩
  | .binary m l op r, hcore, hvalid, htyped, t, ht => by
    simp only [Expr.isCore, Bool.and_eq_true, bne_iff_ne] at hcore
    simp only [Expr.Valid, Expr.Typed, Expr.type?, Expr.mark] at hvalid htyped ht
    obtain ⟨hl, hr, a, b, t', ha, hb, hop, hm⟩ := htyped
    obtain rfl : t = t' := Option.some.inj (ht.symm.trans hm)
    obtain ⟨hsa, hea⟩ := evaluates hc hcore.1.2 hvalid.1 hl ha
    obtain ⟨hsb, heb⟩ := evaluates hc hcore.2 hvalid.2 hr hb
    refine ⟨(operands_of_binaryType hcore.1.1 hsa hsb hop).2.1, ?_⟩
    rw [Expr.gen, show l.type? = some a from ha, show r.type? = some b from hb]
    exact binary_evaluates hcore.1.1 hsa hsb hop hea heb m
  | .cond m test yes no, hcore, hvalid, htyped, t, ht => by
    simp only [Expr.isCore, Bool.and_eq_true, beq_iff_eq] at hcore
    simp only [Expr.Valid, Expr.Typed, Expr.type?, Expr.mark] at hvalid htyped ht
    obtain ⟨htest, hbool, hyes, hno, a, b, ha, hb, hm⟩ := htyped
    obtain rfl : a = b := Option.some.inj (ha.symm.trans (hcore.2.trans hb))
    rw [commonAncestor_self] at hm
    obtain rfl : t = a := Option.some.inj (ht.symm.trans hm)
    obtain ⟨-, het⟩ := evaluates hc hcore.1.1.1 hvalid.1 htest hbool
    obtain ⟨hs, hey⟩ := evaluates hc hcore.1.1.2 hvalid.2.1 hyes ha
    obtain ⟨-, hen⟩ := evaluates hc hcore.1.2 hvalid.2.2 hno hb
    refine ⟨hs, ?_⟩
    simp only [Expr.gen, hm, asType_of_scalar hs]
    exact cond_evaluates het hey hen
  | .list .., hcore, _, _, _, _ | .index .., hcore, _, _, _, _ | .member .., hcore, _, _, _, _
  | .call .., hcore, _, _, _, _ | .methodCall .., hcore, _, _, _, _ => by
    simp [Expr.isCore] at hcore

end ChocoRv.Core
