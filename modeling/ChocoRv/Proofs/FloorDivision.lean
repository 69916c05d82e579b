import ChocoRv.Proofs.CoreExprs

/-!
# Division that rounds down

The code of `//` and `%` on any two words. A piece of code without calls runs in a text as it does
alone, so it is run alone first, where it cannot come to anything else, and then moved to its place:
`Leaves` says where the machine first gets out of the piece.
-/

namespace ChocoRv

open Asm

/-- Whether the item goes on to the next one or to a label that it names, and puts down no place to
come back to. -/
def Asm.Item.isLocal : Item → Bool
  | .instr (.jal _) _ | .instr (.jalr _) _ | .instr (.jr _) _ => false
  | _ => true

namespace Rv32

/-- The place `n` items further on. -/
def Pc.shift (n : Nat) : Pc → Pc
  | .at m => .at (n + m)
  | .out l => .out l

def Config.shift (n : Nat) (c : Config) : Config := ⟨c.pc.shift n, c.state⟩

/-- Before one of the `len` items from number `n` on. -/
def Pc.Inside (n len : Nat) (pc : Pc) : Prop := ∃ m < len, pc = .at (n + m)

namespace Image

variable {img : Image} {n len : Nat} {code : List Item} {c c' c'' : Config} {s : State} {l : Label}
  {i : Instr}

/-- The machine comes from `c` to `c'` and takes no step outside the `len` items from `n` on. -/
inductive Stays (img : Image) (n len : Nat) : Config → Config → Prop
  | refl (c : Config) : Stays img n len c c
  | step {c c' c'' : Config} (hin : c.pc.Inside n len) (hstep : img.step c = some c')
      (hrest : Stays img n len c' c'') : Stays img n len c c''

/-- From the first of the `len` items from `n` on the machine gets out of them at `c`. -/
structure Leaves (img : Image) (n len : Nat) (s : State) (c : Config) : Prop where
  stays : img.Stays n len ⟨.at n, s⟩ c
  out : ¬ c.pc.Inside n len

/-! ### Moving code to its place -/

/-- The piece of code as the whole text. -/
def alone (img : Image) (code : List Item) : Image := { img with code := code }

theorem holds_alone (img : Image) (code : List Item) : (img.alone code).Holds 0 code :=
  ⟨[], [], by simp [alone], rfl⟩

theorem Holds.getElem? (h : img.Holds n code) {m : Nat} {item : Item} (hm : code[m]? = some item) :
    img.code[n + m]? = some item := by
  obtain ⟨pre, post, hcode, rfl⟩ := h
  have hlt : m < code.length := (List.getElem?_eq_some_iff.1 hm).1
  rw [hcode, List.append_assoc, List.getElem?_append_right (by omega), Nat.add_sub_cancel_left,
    List.getElem?_append_left hlt, hm]

/-- A label of the piece is where the piece has it. -/
theorem Holds.target_alone (h : img.Holds n code) (hnd : (defined img.code).Nodup)
    (hl : l ∈ defined code) : img.target l = ((img.alone code).target l).shift n := by
  obtain ⟨item, hitem, hdef⟩ := List.mem_filterMap.1 hl
  obtain ⟨before, after, rfl⟩ := List.append_of_mem hitem
  have hnd' : (defined (before ++ item :: after)).Nodup := by
    obtain ⟨pre, post, hcode, -⟩ := h
    rw [hcode, defined_append, defined_append, List.nodup_append, List.nodup_append] at hnd
    exact hnd.1.2.1
  have halone := (holds_alone img (before ++ item :: after)).right.target hdef hnd'
  rw [h.right.target hdef hnd, halone, Nat.zero_add]
  rfl

/-- Code that runs alike wherever it stands: it makes no calls, and the labels that it refers to are
its own or lead out of the text. -/
structure Movable (img : Image) (code : List Item) : Prop where
  isLocal : code.all Item.isLocal = true
  labels : ∀ item ∈ code, ∀ l, item.refers? = some l → l ∈ defined code ∨ img.target l = .out l

theorem Movable.target (hmov : img.Movable code) (h : img.Holds n code)
    (hnd : (defined img.code).Nodup) {item : Item} (hitem : item ∈ code)
    (hl : item.refers? = some l) : img.target l = ((img.alone code).target l).shift n := by
  by_cases hown : l ∈ defined code
  · exact h.target_alone hnd hown
  · have hout : img.target l = .out l := (hmov.labels item hitem l hl).resolve_left hown
    have halone : (img.alone code).target l = .out l := target_of_notMem hown
    rw [hout, halone]
    rfl

theorem exec_shift {text : Bytes} (hlocal : (Item.instr i text).isLocal = true) {m : Nat}
    (htarget : ∀ l, i.label? = some l → img.target l = ((img.alone code).target l).shift n) :
    img.exec (n + m) s i = ((img.alone code).exec m s i).map (·.shift n) := by
  cases i with
  | jal | jalr | jr => cases hlocal
  | branch cond r₁ r₂ l =>
    simp only [exec, Option.map_some, Config.shift, apply_ite (Pc.shift n), htarget l rfl]
    rfl
  | branchZero cond r l =>
    simp only [exec, Option.map_some, Config.shift, apply_ite (Pc.shift n), htarget l rfl]
    rfl
  | j l => simp only [exec, Option.map_some, Config.shift, htarget l rfl]
  | ecall => rfl
  | load o => cases o <;> simp only [exec, effect, Option.map_map] <;> rfl
  | store o => cases o <;> simp only [exec, effect, Option.map_map] <;> rfl
  | op | opImm | move | li | la | loadLabel | storeLabel =>
    simp only [exec, effect, Option.map_map]
    rfl

theorem Movable.step (hmov : img.Movable code) (h : img.Holds n code)
    (hnd : (defined img.code).Nodup) (hstep : (img.alone code).step c = some c') :
    (c.shift n).pc.Inside n code.length ∧ img.step (c.shift n) = some (c'.shift n) := by
  obtain ⟨m | l, s⟩ := c
  · have hget : (img.alone code).code[m]? = code[m]? := rfl
    cases hm : code[m]? with
    | none => simp only [Image.step, hget, hm, reduceCtorEq] at hstep
    | some item =>
      refine ⟨⟨m, (List.getElem?_eq_some_iff.1 hm).1, rfl⟩, ?_⟩
      have hmem : item ∈ code := List.mem_of_getElem? hm
      simp only [Image.step, hget, hm] at hstep
      show img.step ⟨.at (n + m), s⟩ = _
      simp only [Image.step, h.getElem? hm]
      cases item with
      | instr i text =>
        dsimp only at hstep ⊢
        rw [exec_shift (List.all_eq_true.1 hmov.isLocal _ hmem) fun l hl => hmov.target h hnd hmem hl]
        exact Option.map_eq_some_iff.2 ⟨c', hstep, rfl⟩
      | label | globalLabel | remark =>
        cases hstep
        rfl
      | _ => cases hstep
  · cases hstep

/-- A run of the piece alone is a run of the piece in the text. -/
theorem Movable.stays (hmov : img.Movable code) (h : img.Holds n code)
    (hnd : (defined img.code).Nodup) {k : Nat} (hrun : (img.alone code).run k c = some c') :
    img.Stays n code.length (c.shift n) (c'.shift n) := by
  induction k generalizing c with
  | zero =>
    cases hrun
    exact .refl _
  | succ k ih =>
    rw [run, Option.bind_eq_some_iff] at hrun
    obtain ⟨c₁, hstep, hrest⟩ := hrun
    obtain ⟨hin, hstep'⟩ := hmov.step h hnd hstep
    exact .step hin hstep' (ih hrest)

/-- A piece of code that comes to its end or out of the text when it is run alone does so in the text,
and takes no step outside the piece. -/
theorem Movable.leaves (hmov : img.Movable code) (h : img.Holds n code)
    (hnd : (defined img.code).Nodup) {k : Nat}
    (hreach : (img.alone code).Reaches k ⟨.at 0, s⟩ c')
    (hend : c'.pc = .at code.length ∨ ∃ l, c'.pc = .out l) :
    img.Leaves n code.length s (c'.shift n) := by
  obtain ⟨j, -, hrun⟩ := hreach
  refine ⟨hmov.stays h hnd hrun, ?_⟩
  rintro ⟨m, hm, hpc⟩
  rcases hend with hend | ⟨l, hend⟩
  · simp only [Config.shift, hend, Pc.shift, Pc.at.injEq] at hpc
    omega
  · simp only [Config.shift, hend, Pc.shift, reduceCtorEq] at hpc

end Image

end Rv32

/-! ### Quotient and remainder -/

namespace Codegen

open ChocoRv.Core Rv32 Emit

/-- The quotient rounded down, as a word. -/
def floorQuotient (x y : Word) : Word := BitVec.ofInt 32 (x.toInt.fdiv y.toInt)

/-- What the quotient rounded down leaves of `x`. -/
def floorRemainder (x y : Word) : Word := BitVec.ofInt 32 (x.toInt - y.toInt * x.toInt.fdiv y.toInt)

/-- Whatever was emitted before, the computation emits code that divides the words `x` in `t0` and
`y` in `a0`: wherever the code stands in a text that defines no label twice and leaves `error.Div` to
others, the machine gets out of the code at `error.Div` if `y` is 0, and else at its end with `w` in
`a0`. -/
def Divides (gen : Emit Unit) (x y w : Word) : Prop :=
  ∀ st, Ok gen st fun _ code _ => ∀ (img : Image) (n : Nat) (s : State),
    (defined img.code).Nodup → img.target errorDiv = .out errorDiv → img.Holds n code →
      s.get .t0 = x → s.get .a0 = y →
        ∃ c, img.Leaves n code.length s c ∧ (c.pc = .out errorDiv ↔ y = 0) ∧
          (y ≠ 0 → c.pc = .at (n + code.length) ∧ c.state.get .a0 = w)

/-- The code has no label twice, leaves `error.Div` to others and refers to no other label that is
not its own. -/
structure DivisionCode (code : List Item) : Prop where
  nodup : (defined code).Nodup
  error : errorDiv ∉ defined code
  isLocal : code.all Item.isLocal = true
  labels : ∀ item ∈ code, ∀ l, item.refers? = some l → l ∈ defined code ∨ l = errorDiv

theorem DivisionCode.of_label {code : List Item} (stem : Bytes) (k : Nat)
    (hdef : defined code = [freshLabel stem k])
    (hlocal : code.all Item.isLocal = true)
    (hlabels : ∀ item ∈ code, ∀ l, item.refers? = some l → l = freshLabel stem k ∨ l = errorDiv) :
    DivisionCode code where
  nodup := by simp [hdef]
  error := by simpa [hdef] using (freshLabel_ne (by decide) stem k).symm
  isLocal := hlocal
  labels item hitem l hl := by simpa [hdef] using hlabels item hitem l hl

theorem divisionCode_floorDiv (st : EmitState) :
    All floorDiv st fun _ code _ => DivisionCode code := by
  simp only [floorDiv, beqz, branch, addi, mv, label, Emit.instr, all_bind, all_fresh, all_items,
    List.nil_append, List.cons_append]
  exact .of_label (txt "divmod_end") (st.fresh + 1) rfl rfl (by simp [Item.refers?, Instr.label?])

theorem divisionCode_floorMod (st : EmitState) :
    All floorMod st fun _ code _ => DivisionCode code := by
  simp only [floorMod, beqz, branch, add, mv, label, Emit.instr, all_bind, all_fresh, all_items,
    List.nil_append, List.cons_append]
  exact .of_label (txt "divmod_end") (st.fresh + 1) rfl rfl (by simp [Item.refers?, Instr.label?])

variable {gen : Emit Unit} {x y w : Word}

/-- It is enough to run the code alone. -/
theorem Divides.of_lands {op : BinOp} {v : Int}
    (hcode : ∀ st, All gen st fun _ code _ => DivisionCode code)
    (hop : applyBinary op (.int x.toInt) (.int y.toInt) =
      if y.toInt = 0 then .error .divZero else .ok (.int v)) (hv : BitVec.ofInt 32 v = w)
    (h : ∀ st, Ok gen st fun _ code _ => ∀ {img : Image} {n room : Nat} {s : State} {a b : Int},
      (defined img.code).Nodup → img.target errorDiv = .out errorDiv → img.Holds n code →
        s.get .t0 = BitVec.ofInt 32 a → s.get .a0 = BitVec.ofInt 32 b → wrap a = a → wrap b = b →
          Lands img n code room s (Result .int) (applyBinary op (.int a) (.int b))) :
    Divides gen x y w := by
  intro st
  refine ((h st).and_all (hcode st)).mono fun _ code _ ⟨hlands, hdiv⟩ => ?_
  intro img n s hunique hout hholds hx hy
  have hmov : img.Movable code := ⟨hdiv.isLocal, fun item hitem l hl =>
    (hdiv.labels item hitem l hl).imp_right (by rintro rfl; exact hout)⟩
  have halone := @hlands (img.alone code) 0 0 s x.toInt y.toInt hdiv.nodup
    (Image.target_of_notMem hdiv.error) (Image.holds_alone img code)
    (by rw [hx, BitVec.ofInt_toInt]) (by rw [hy, BitVec.ofInt_toInt]) (wrap_toInt x) (wrap_toInt y)
  rw [hop] at halone
  by_cases hy₀ : y = 0
  · subst hy₀
    obtain ⟨s', hreach⟩ := halone
    refine ⟨_, hmov.leaves hholds hunique hreach (.inr ⟨_, rfl⟩), ⟨fun _ => rfl, fun _ => rfl⟩, ?_⟩
    exact fun hne => absurd rfl hne
  · have hy₁ : y.toInt ≠ 0 := fun h => hy₀ (BitVec.toInt_inj.1 h)
    rw [if_neg hy₁] at halone
    obtain ⟨s', hreach, -, hw, -, -⟩ := halone
    rw [Nat.zero_add] at hreach
    refine ⟨_, hmov.leaves hholds hunique hreach (.inl rfl), ?_, fun _ => ⟨rfl, ?_⟩⟩
    · exact ⟨nofun, fun h => absurd h hy₀⟩
    · exact hw.trans hv

theorem divides_floorDiv (x y : Word) : Divides floorDiv x y (floorQuotient x y) :=
  .of_lands divisionCode_floorDiv rfl (ofInt_wrap _) floorDiv_lands

theorem divides_floorMod (x y : Word) : Divides floorMod x y (floorRemainder x y) :=
  .of_lands divisionCode_floorMod rfl ((ofInt_wrap _).trans (by rw [Int.fmod_def]; rfl))
    floorMod_lands

theorem floorRemainder_eq (x y : Word) : floorRemainder x y = x.smod y := by
  rw [floorRemainder, ← Int.fmod_def, ← BitVec.toInt_smod, BitVec.ofInt_toInt]

/-- A remainder that is not 0 has the sign of the divisor. -/
theorem sign_fmod {a b : Int} (hb : b ≠ 0) (h : a.fmod b ≠ 0) : (a.fmod b).sign = b.sign := by
  rcases Int.lt_or_gt_of_ne hb with hneg | hpos
  · have hle := Int.fmod_nonneg_of_pos (-a) (Int.neg_pos_of_neg hneg)
    rw [Int.neg_fmod_neg] at hle
    rw [Int.sign_eq_neg_one_of_neg hneg, Int.sign_eq_neg_one_of_neg (by omega)]
  · have hle := Int.fmod_nonneg_of_pos a hpos
    rw [Int.sign_eq_one_of_pos hpos, Int.sign_eq_one_of_pos (by omega)]

/-- The emitted code of `//` and `%` divides any two words with the quotient rounded down, and stops
where the divisor is 0. The remainder fits in a word, is 0 or has the sign of the divisor, and with
the product of divisor and quotient it makes up the dividend. -/
theorem division_rounds_down (x y : Word) :
    Divides floorDiv x y (floorQuotient x y) ∧ Divides floorMod x y (floorRemainder x y) ∧
      (floorRemainder x y).toInt = x.toInt - y.toInt * x.toInt.fdiv y.toInt ∧
      (y ≠ 0 → floorRemainder x y = 0 ∨ (floorRemainder x y).toInt.sign = y.toInt.sign) ∧
      x = y * floorQuotient x y + floorRemainder x y := by
  have hrem : (floorRemainder x y).toInt = x.toInt.fmod y.toInt := by
    rw [floorRemainder_eq, BitVec.toInt_smod]
  refine ⟨divides_floorDiv x y, divides_floorMod x y, hrem.trans (Int.fmod_def ..), fun hy => ?_, ?_⟩
  · rw [hrem, or_iff_not_imp_left]
    intro hr
    have hr' : x.toInt.fmod y.toInt ≠ 0 := fun h => hr (BitVec.toInt_inj.1 (hrem.trans h))
    exact sign_fmod (fun h => hy (BitVec.toInt_inj.1 h)) hr'
  · calc
      x = BitVec.ofInt 32 (y.toInt * x.toInt.fdiv y.toInt +
            (x.toInt - y.toInt * x.toInt.fdiv y.toInt)) := by
          rw [Int.add_comm, Int.sub_add_cancel, BitVec.ofInt_toInt]
      _ = y * floorQuotient x y + floorRemainder x y := by
          rw [BitVec.ofInt_add, BitVec.ofInt_mul, BitVec.ofInt_toInt]
          rfl

/-- The code of `//` as a text of its own, with -7 and 2 for operands. -/
theorem minusSeven_halved : Ok floorDiv {} fun _ code _ =>
    ∃ c, (⟨code, fun _ => 0, fun _ => 0, fun _ => 0, .at ∘ BitVec.toNat, fun _ => none⟩ : Image).Leaves 0
        code.length ⟨fun r => if r = .t0 then -7 else if r = .a0 then 2 else 0, fun _ => 0⟩ c ∧
      c.pc = .at code.length ∧ c.state.get .a0 = -4 := by
  refine (((division_rounds_down (-7) 2).1 {}).and_all (divisionCode_floorDiv {})).mono
    fun _ code _ ⟨hdiv, hcode⟩ => ?_
  obtain ⟨c, hleaves, -, hend⟩ := hdiv ⟨code, fun _ => 0, fun _ => 0, fun _ => 0, .at ∘ BitVec.toNat,
    fun _ => none⟩ 0 ⟨fun r => if r = .t0 then -7 else if r = .a0 then 2 else 0, fun _ => 0⟩
    hcode.nodup (Image.target_of_notMem hcode.error) ⟨[], [], by simp, rfl⟩ rfl rfl
  obtain ⟨hpc, hword⟩ := hend (by decide)
  exact ⟨c, hleaves, by rwa [Nat.zero_add] at hpc, hword⟩

end Codegen

end ChocoRv
