import ChocoRv.Asm.Basic
import Mathlib.Logic.Function.Basic
import Mathlib.Tactic.Common

/-!
# An RV32 machine

Registers are words of 32 bits and memory is a map from addresses to bytes; words lie at multiples
of four, the lowest byte first. The machine runs the items of an assembly text in order. A jump to
a label that the text does not define leaves it, except for calls of routines that return.
-/

namespace ChocoRv.Rv32

open Asm

abbrev Word := BitVec 32

abbrev Memory := Word → BitVec 8

/-- Multiples of four. -/
def Aligned (a : Word) : Prop := a.toNat % 4 = 0

instance (a : Word) : Decidable (Aligned a) := inferInstanceAs (Decidable (a.toNat % 4 = 0))

/-- A word is put together from its bytes. -/
theorem append_extractLsb' (w : Word) :
    w.extractLsb' 24 8 ++ w.extractLsb' 16 8 ++ w.extractLsb' 8 8 ++ w.extractLsb' 0 8 = w := by
  ext i hi
  simp only [BitVec.getElem_append, BitVec.getElem_extractLsb']
  split
  · rw [Nat.zero_add, BitVec.getLsbD_eq_getElem hi]
  split
  · rw [show 8 + (i - 8) = i by omega, BitVec.getLsbD_eq_getElem hi]
  split
  · rw [show 16 + (i - 8 - 8) = i by omega, BitVec.getLsbD_eq_getElem hi]
  · rw [show 24 + (i - 8 - 8 - 8) = i by omega, BitVec.getLsbD_eq_getElem hi]

namespace Memory

def word (m : Memory) (a : Word) : Word := m (a + 3) ++ m (a + 2) ++ m (a + 1) ++ m a

def setByte (m : Memory) (a : Word) (b : BitVec 8) : Memory := Function.update m a b

def setWord (m : Memory) (a w : Word) : Memory :=
  (((m.setByte a (w.extractLsb' 0 8)).setByte (a + 1) (w.extractLsb' 8 8)).setByte (a + 2)
    (w.extractLsb' 16 8)).setByte (a + 3) (w.extractLsb' 24 8)

theorem setWord_apply (m : Memory) (a w b : Word) :
    m.setWord a w b = if b = a + 3 then w.extractLsb' 24 8 else if b = a + 2 then
      w.extractLsb' 16 8 else if b = a + 1 then w.extractLsb' 8 8 else if b = a then
      w.extractLsb' 0 8 else m b := by
  simp only [setWord, setByte, Function.update_apply]

@[simp] theorem word_setWord (m : Memory) (a w : Word) : (m.setWord a w).word a = w := by
  have h₁ : a + 2 ≠ a + 3 := by bv_omega
  have h₂ : a + 1 ≠ a + 3 := by bv_omega
  have h₃ : a + 1 ≠ a + 2 := by bv_omega
  have h₄ : a ≠ a + 3 := by bv_omega
  have h₅ : a ≠ a + 2 := by bv_omega
  have h₆ : a ≠ a + 1 := by bv_omega
  simp only [word, setWord_apply, if_true, h₁, h₂, h₃, h₄, h₅, h₆, if_false]
  exact append_extractLsb' w

/-- A word elsewhere is not touched. -/
theorem word_setWord_of_ne (m : Memory) {a b : Word} (w : Word) (ha : Aligned a) (hb : Aligned b)
    (hne : b ≠ a) : (m.setWord a w).word b = m.word b := by
  have hfar : ∀ i < 4, ∀ j < 4, b + BitVec.ofNat 32 i ≠ a + BitVec.ofNat 32 j := by
    intro i hi j hj
    unfold Aligned at ha hb
    bv_omega
  have hbyte : ∀ i < 4, m.setWord a w (b + BitVec.ofNat 32 i) = m (b + BitVec.ofNat 32 i) := by
    intro i hi
    have h₃ : b + BitVec.ofNat 32 i ≠ a + 3 := hfar i hi 3 (by omega)
    have h₂ : b + BitVec.ofNat 32 i ≠ a + 2 := hfar i hi 2 (by omega)
    have h₁ : b + BitVec.ofNat 32 i ≠ a + 1 := hfar i hi 1 (by omega)
    have h₀ : b + BitVec.ofNat 32 i ≠ a := by simpa using hfar i hi 0 (by omega)
    rw [setWord_apply, if_neg h₃, if_neg h₂, if_neg h₁, if_neg h₀]
  have h₃ : m.setWord a w (b + 3) = m (b + 3) := hbyte 3 (by omega)
  have h₂ : m.setWord a w (b + 2) = m (b + 2) := hbyte 2 (by omega)
  have h₁ : m.setWord a w (b + 1) = m (b + 1) := hbyte 1 (by omega)
  have h₀ : m.setWord a w b = m b := by simpa using hbyte 0 (by omega)
  simp only [word, h₀, h₁, h₂, h₃]

end Memory

/-- Registers and memory. -/
structure State where
  reg : Reg → Word
  mem : Memory

namespace State

/-- The register `zero` is always 0. -/
def get (s : State) : Reg → Word
  | .zero => 0
  | r => s.reg r

/-- Writing to `zero` has no effect. -/
def set (s : State) (r : Reg) (w : Word) : State :=
  if r = .zero then s else { s with reg := Function.update s.reg r w }

def setWord (s : State) (a w : Word) : State := { s with mem := s.mem.setWord a w }

variable (s : State) (r r' : Reg) (a w : Word)

@[simp] theorem get_zero : s.get .zero = 0 := rfl

theorem get_set_self (h : r ≠ .zero) : (s.set r w).get r = w := by
  cases r <;> simp_all [set, get]

theorem get_set_of_ne (h : r' ≠ r) : (s.set r w).get r' = s.get r' := by
  by_cases hr : r = .zero
  · simp [set, hr]
  · cases r' <;> simp_all [set, get]

theorem set_get : s.set r (s.get r) = s := by
  by_cases h : r = .zero
  · simp [set, h]
  · cases r <;> simp_all [set, get]

theorem set_set : (s.set r a).set r w = s.set r w := by
  by_cases h : r = .zero <;> simp [set, h]

@[simp] theorem mem_set : (s.set r w).mem = s.mem := by
  unfold set
  split <;> rfl

@[simp] theorem get_setWord : (s.setWord a w).get r = s.get r := by
  cases r <;> rfl

@[simp] theorem mem_setWord : (s.setWord a w).mem = s.mem.setWord a w := rfl

end State

/-- Where the machine is: before an item of the text, or at a label outside it. -/
inductive Pc where
  | at (n : Nat)
  | out (l : Label)
deriving DecidableEq, Repr

structure Config where
  pc : Pc
  state : State

/-- A text in its surroundings. -/
structure Image where
  code : List Item
  /-- The addresses of labels. -/
  address : Label → Word
  /-- What a store at a label leaves in its temporary register. -/
  scratch : Label → Word
  /-- The address of the item after number `n`. -/
  after : Nat → Word
  /-- Where an address leads. -/
  place : Word → Pc
  /-- The routines outside that return, with what they do. -/
  routine : Label → Option (State → State)

/-- Division toward zero; the quotient by zero is -1. -/
def div (a b : Word) : Word := if b = 0 then -1 else a.sdiv b

/-- The remainder with the sign of the dividend; that by zero is the dividend. -/
def rem (a b : Word) : Word := if b = 0 then a else a.srem b

def ofBool (b : Bool) : Word := if b then 1 else 0

def evalOp : Op → Word → Word → Word
  | .add, a, b => a + b
  | .sub, a, b => a - b
  | .mul, a, b => a * b
  | .div, a, b => div a b
  | .rem, a, b => rem a b
  | .xor, a, b => a ^^^ b
  | .slt, a, b => ofBool (a.slt b)

def evalOpImm : OpImm → Word → Int → Word
  | .addi, a, n => a + BitVec.ofInt 32 n
  | .xori, a, n => a ^^^ BitVec.ofInt 32 n
  | .slli, a, n => a <<< n.toNat

def evalMove : Move → Word → Word
  | .mv, a => a
  | .seqz, a => ofBool (a == 0)
  | .snez, a => ofBool (a != 0)

def holds : Cond → Word → Word → Bool
  | .beq, a, b => a == b
  | .bne, a, b => a != b
  | .blt, a, b => a.slt b
  | .bge, a, b => !a.slt b

def holdsZero : CondZero → Word → Bool
  | .beqz, a => a == 0
  | .bnez, a => a != 0

/-- The word at an address, if it is aligned. -/
def State.load (s : State) (a : Word) : Option Word :=
  if Aligned a then some (s.mem.word a) else none

theorem State.load_aligned {s : State} {a : Word} (h : Aligned a) : s.load a = some (s.mem.word a) :=
  if_pos h

def State.store (s : State) (a w : Word) : Option State :=
  if Aligned a then some (s.setWord a w) else none

namespace Image

variable (img : Image)

/-- Where a label is. -/
def target (l : Label) : Pc :=
  match img.code.findIdx? (·.defines? == some l) with
  | some n => .at n
  | none => .out l

/-- The effect of an instruction that goes on to the next one. -/
@[grind =]
def effect (s : State) : Instr → Option State
  | .op o rd rs₁ rs₂ => some (s.set rd (evalOp o (s.get rs₁) (s.get rs₂)))
  | .opImm o rd rs n => some (s.set rd (evalOpImm o (s.get rs) n))
  | .move o rd rs => some (s.set rd (evalMove o (s.get rs)))
  | .li rd n => some (s.set rd (BitVec.ofInt 32 n))
  | .la rd l => some (s.set rd (img.address l))
  | .load .lw rd base n => (s.load (s.get base + BitVec.ofInt 32 n)).map (s.set rd)
  | .load .lbu rd base n =>
    some (s.set rd ((s.mem (s.get base + BitVec.ofInt 32 n)).setWidth 32))
  | .store .sw rs base n => s.store (s.get base + BitVec.ofInt 32 n) (s.get rs)
  | .store .sb rs base n =>
    some { s with mem := s.mem.setByte (s.get base + BitVec.ofInt 32 n) ((s.get rs).setWidth 8) }
  | .loadLabel rd l => (s.load (img.address l)).map (s.set rd)
  | .storeLabel rs l tmp => (s.store (img.address l) (s.get rs)).map (·.set tmp (img.scratch l))
  | .branch .. | .branchZero .. | .j _ | .jal _ | .jalr _ | .jr _ | .ecall => none

/-- One step from item number `n`. Calls to the surroundings end the run. -/
@[grind =]
def exec (n : Nat) (s : State) : Instr → Option Config
  | .branch c rs₁ rs₂ l =>
    some ⟨if holds c (s.get rs₁) (s.get rs₂) then img.target l else .at (n + 1), s⟩
  | .branchZero c rs l =>
    some ⟨if holdsZero c (s.get rs) then img.target l else .at (n + 1), s⟩
  | .j l => some ⟨img.target l, s⟩
  | .jal l =>
    let s := s.set .ra (img.after n)
    match img.target l, img.routine l with
    | .out _, some routine => some ⟨.at (n + 1), routine s⟩
    | pc, _ => some ⟨pc, s⟩
  | .jalr rs => some ⟨img.place (s.get rs), s.set .ra (img.after n)⟩
  | .jr rs => some ⟨img.place (s.get rs), s⟩
  | .ecall => none
  | i => (img.effect s i).map (⟨.at (n + 1), ·⟩)

def step : Config → Option Config
  | ⟨.out _, _⟩ => none
  | ⟨.at n, s⟩ =>
    match img.code[n]? with
    | some (.instr i _) => img.exec n s i
    | some (.label _ _) | some (.globalLabel _) | some (.remark _) => some ⟨.at (n + 1), s⟩
    | _ => none

def run : Nat → Config → Option Config
  | 0, c => some c
  | k + 1, c => (img.step c).bind (run k)

/-- The machine comes from `c` to `c'` in at least `k` steps. -/
def Reaches (k : Nat) (c c' : Config) : Prop := ∃ n, k ≤ n ∧ img.run n c = some c'

/-- The machine can take `k` steps from `c`. -/
def Runs (k : Nat) (c : Config) : Prop := (img.run k c).isSome

end Image

namespace Image

variable {img : Image} {c c' c'' : Config} {j k : Nat}

theorem run_add (j k : Nat) (c : Config) : img.run (j + k) c = (img.run j c).bind (img.run k) := by
  induction j generalizing c with
  | zero => simp [run]
  | succ j ih =>
    rw [Nat.succ_add, run, run, Option.bind_assoc]
    exact congrArg _ (funext ih)

theorem Reaches.refl (c : Config) : img.Reaches 0 c c := ⟨0, Nat.le_refl 0, rfl⟩

theorem Reaches.of_step (h : img.step c = some c') : img.Reaches 1 c c' :=
  ⟨1, Nat.le_refl 1, by simp [run, h]⟩

theorem Reaches.trans (h : img.Reaches j c c') (h' : img.Reaches k c' c'') :
    img.Reaches (j + k) c c'' := by
  obtain ⟨m, hm, hrun⟩ := h
  obtain ⟨n, hn, hrun'⟩ := h'
  exact ⟨m + n, by omega, by rw [run_add, hrun]; exact hrun'⟩

theorem Reaches.mono (h : img.Reaches k c c') (hjk : j ≤ k) : img.Reaches j c c' := by
  obtain ⟨n, hn, hrun⟩ := h
  exact ⟨n, by omega, hrun⟩

theorem Runs.mono (h : img.Runs k c) (hjk : j ≤ k) : img.Runs j c := by
  obtain ⟨m, rfl⟩ := Nat.exists_eq_add_of_le hjk
  rw [Runs, run_add] at h
  unfold Runs
  cases hj : img.run j c with
  | none => simp [hj] at h
  | some c' => rfl

theorem Reaches.runs (h : img.Reaches j c c') (h' : img.Runs k c') : img.Runs (j + k) c := by
  obtain ⟨n, hn, hrun⟩ := h
  have : img.Runs (n + k) c := by rw [Runs, run_add, hrun]; exact h'
  exact this.mono (by omega)

/-! ### Pieces of code -/

/-- The items stand in the text from number `n` on. -/
def Holds (img : Image) (n : Nat) (items : List Item) : Prop :=
  ∃ pre post, img.code = pre ++ items ++ post ∧ pre.length = n

variable {n : Nat} {items more : List Item} {s s' : State} {l : Label} {i : Instr} {text : Bytes}

theorem Holds.left (h : img.Holds n (items ++ more)) : img.Holds n items := by
  obtain ⟨pre, post, hcode, hn⟩ := h
  exact ⟨pre, more ++ post, by simp [hcode], hn⟩

theorem Holds.right (h : img.Holds n (items ++ more)) : img.Holds (n + items.length) more := by
  obtain ⟨pre, post, hcode, hn⟩ := h
  exact ⟨pre ++ items, post, by simp [hcode], by simp [hn]⟩

theorem Holds.tail {item : Item} (h : img.Holds n (item :: items)) : img.Holds (n + 1) items :=
  Holds.right (show img.Holds n ([item] ++ items) from h)

theorem Holds.get {item : Item} (h : img.Holds n (item :: items)) : img.code[n]? = some item := by
  obtain ⟨pre, post, hcode, rfl⟩ := h
  simp [hcode]

/-- A label of the text is where it stands, if the text defines no label twice. -/
theorem Holds.target {item : Item} (h : img.Holds n (item :: items))
    (hl : item.defines? = some l) (hnd : (img.code.filterMap Item.defines?).Nodup) :
    img.target l = .at n := by
  obtain ⟨pre, post, hcode, rfl⟩ := h
  have hpre : pre.findIdx? (·.defines? == some l) = none := by
    rw [List.findIdx?_eq_none_iff]
    intro x hx
    rw [beq_eq_false_iff_ne]
    intro hdef
    rw [hcode, List.append_assoc, List.filterMap_append, List.nodup_append] at hnd
    refine hnd.2.2 l (List.mem_filterMap.2 ⟨x, hx, hdef⟩) l ?_ rfl
    exact List.mem_filterMap.2 ⟨item, by simp, hl⟩
  unfold Image.target
  rw [hcode, List.append_assoc, List.findIdx?_append, hpre]
  simp [List.findIdx?_cons, hl]

theorem Holds.step_effect (h : img.Holds n (.instr i text :: items))
    (heffect : img.effect s i = some s') :
    img.step ⟨.at n, s⟩ = some ⟨.at (n + 1), s'⟩ := by
  simp only [step, h.get]
  cases i <;> simp_all [exec, effect]

theorem Holds.step_label (h : img.Holds n (.label l text :: items)) :
    img.step ⟨.at n, s⟩ = some ⟨.at (n + 1), s⟩ := by
  simp only [step, h.get]

theorem Holds.step_branch {c : Cond} {r₁ r₂ : Reg}
    (h : img.Holds n (.instr (.branch c r₁ r₂ l) text :: items)) :
    img.step ⟨.at n, s⟩ =
      some ⟨if holds c (s.get r₁) (s.get r₂) then img.target l else .at (n + 1), s⟩ := by
  simp only [step, h.get, exec]

theorem Holds.step_branchZero {c : CondZero} {r : Reg}
    (h : img.Holds n (.instr (.branchZero c r l) text :: items)) :
    img.step ⟨.at n, s⟩ =
      some ⟨if holdsZero c (s.get r) then img.target l else .at (n + 1), s⟩ := by
  simp only [step, h.get, exec]

theorem Holds.step_j (h : img.Holds n (.instr (.j l) text :: items)) :
    img.step ⟨.at n, s⟩ = some ⟨img.target l, s⟩ := by
  simp only [step, h.get, exec]

/-- The effect of instructions one after the other. -/
def effects (img : Image) (s : State) : List Item → Option State
  | [] => some s
  | .instr i _ :: items => (img.effect s i).bind (img.effects · items)
  | _ :: _ => none

/-- Code without jumps and labels runs from its start to its end. -/
theorem Holds.reaches (h : img.Holds n items) (heffects : img.effects s items = some s') :
    img.Reaches items.length ⟨.at n, s⟩ ⟨.at (n + items.length), s'⟩ := by
  induction items generalizing n s with
  | nil =>
    simp only [effects, Option.some.injEq] at heffects
    subst heffects
    exact .refl _
  | cons item items ih =>
    obtain ⟨i, text, rfl⟩ : ∃ i text, item = .instr i text := by
      cases item <;> simp_all [effects]
    simp only [effects, Option.bind_eq_some_iff] at heffects
    obtain ⟨s₁, hs₁, hrest⟩ := heffects
    have hhead := Reaches.of_step (h.step_effect hs₁)
    have htail := hhead.trans (ih h.tail hrest)
    rw [List.length_cons, Nat.add_comm items.length 1, ← Nat.add_assoc]
    exact htail

theorem effects_append (img : Image) (s : State) (code more : List Item) :
    img.effects s (code ++ more) = (img.effects s code).bind (img.effects · more) := by
  induction code generalizing s with
  | nil => rfl
  | cons item code ih =>
    cases item with
    | instr i text => simp only [List.cons_append, Image.effects, ih, Option.bind_assoc]
    | _ => rfl

/-- A label that the text does not define is outside. -/
theorem target_of_notMem (h : l ∉ img.code.filterMap Item.defines?) :
    img.target l = .out l := by
  have hnone : img.code.findIdx? (·.defines? == some l) = none := by
    rw [List.findIdx?_eq_none_iff]
    intro item hitem
    rw [beq_eq_false_iff_ne]
    exact fun hdef => h (List.mem_filterMap.2 ⟨item, hitem, hdef⟩)
  rw [Image.target, hnone]

end Image

theorem sp_set_of_ne (s : State) {r : Reg} (w : Word) (h : Reg.sp ≠ r) :
    (s.set r w).get .sp = s.get .sp := State.get_set_of_ne _ _ _ _ h

theorem aligned_sub_four {a : Word} (h : Aligned a) : Aligned (a - 4) := by
  unfold Aligned at h ⊢
  bv_omega

theorem aligned_sub_eight {a : Word} (h : Aligned a) : Aligned (a - 8) := by
  unfold Aligned at h ⊢
  bv_omega

/-! ### Pushing and popping -/

/-- The state after pushing a register. -/
def pushed (s : State) (r : Reg) : State :=
  (s.set .sp (s.get .sp - 4)).setWord (s.get .sp - 4) (s.get r)

@[simp] theorem sp_pushed (s : State) (r : Reg) : (pushed s r).get .sp = s.get .sp - 4 := by
  simp [pushed, State.get_set_self]

@[simp] theorem mem_pushed (s : State) (r : Reg) :
    (pushed s r).mem = s.mem.setWord (s.get .sp - 4) (s.get r) := by
  simp [pushed]

theorem get_pushed_of_ne (s : State) (r : Reg) {r' : Reg} (h : r' ≠ .sp) :
    (pushed s r).get r' = s.get r' := by
  rw [pushed, State.get_setWord, State.get_set_of_ne _ _ _ _ h]

theorem aligned_sp_pushed {s : State} (h : Aligned (s.get .sp)) (r : Reg) :
    Aligned ((pushed s r).get .sp) := by
  rw [sp_pushed]
  exact aligned_sub_four h

theorem toNat_sp_pushed {s : State} (h : 4 ≤ (s.get .sp).toNat) (r : Reg) :
    ((pushed s r).get .sp).toNat + 4 = (s.get .sp).toNat := by
  rw [sp_pushed]
  bv_omega

theorem word_pushed (s : State) (r : Reg) :
    (pushed s r).mem.word ((pushed s r).get .sp) = s.get r := by
  rw [mem_pushed, sp_pushed, Memory.word_setWord]

theorem add_ofInt_zero (a : Word) : a + BitVec.ofInt 32 0 = a := by simp

theorem add_ofInt_neg_four (a : Word) : a + BitVec.ofInt 32 (-4) = a - 4 := by
  rw [show BitVec.ofInt 32 (-4) = -(4 : Word) by decide, ← BitVec.sub_eq_add_neg]

theorem add_ofInt_neg_eight (a : Word) : a + BitVec.ofInt 32 (-8) = a - 8 := by
  rw [show BitVec.ofInt 32 (-8) = -(8 : Word) by decide, ← BitVec.sub_eq_add_neg]

theorem effects_push (img : Image) {s : State} {r : Reg} (hr : r ≠ .sp) (h : Aligned (s.get .sp))
    (c c' : Bytes) (rest : List Item) :
    img.effects s (.instr (.opImm .addi .sp .sp (-4)) c :: .instr (.store .sw r .sp 0) c' :: rest) =
      img.effects (pushed s r) rest := by
  have hsp : (s.set .sp (s.get .sp - 4)).get .sp = s.get .sp - 4 :=
    State.get_set_self _ _ _ (by decide)
  have hr' : (s.set .sp (s.get .sp - 4)).get r = s.get r := State.get_set_of_ne _ _ _ _ hr
  have hstore : (s.set .sp (s.get .sp - 4)).store (s.get .sp - 4) (s.get r) = some (pushed s r) :=
    if_pos (aligned_sub_four h)
  simp only [Image.effects, Image.effect, evalOpImm, add_ofInt_neg_four, Option.bind_some, hsp, hr',
    add_ofInt_zero, hstore]

/-- The state after popping into a register. -/
def popped (s : State) (r : Reg) : State :=
  (s.set r (s.mem.word (s.get .sp))).set .sp (s.get .sp + 4)

@[simp] theorem sp_popped (s : State) (r : Reg) : (popped s r).get .sp = s.get .sp + 4 := by
  simp [popped, State.get_set_self]

@[simp] theorem mem_popped (s : State) (r : Reg) : (popped s r).mem = s.mem := by
  simp [popped]

theorem get_popped_self (s : State) {r : Reg} (hr : r ≠ .sp) (hz : r ≠ .zero) :
    (popped s r).get r = s.mem.word (s.get .sp) := by
  rw [popped, State.get_set_of_ne _ _ _ _ hr, State.get_set_self _ _ _ hz]

theorem get_popped_of_ne (s : State) {r r' : Reg} (hr : r' ≠ r) (hsp : r' ≠ .sp) :
    (popped s r).get r' = s.get r' := by
  rw [popped, State.get_set_of_ne _ _ _ _ hsp, State.get_set_of_ne _ _ _ _ hr]

theorem effects_pop (img : Image) {s : State} {r : Reg} (hr : r ≠ .sp) (h : Aligned (s.get .sp))
    (c c' : Bytes) (rest : List Item) :
    img.effects s (.instr (.load .lw r .sp 0) c :: .instr (.opImm .addi .sp .sp 4) c' :: rest) =
      img.effects (popped s r) rest := by
  have hload : s.load (s.get .sp) = some (s.mem.word (s.get .sp)) := if_pos h
  have hsp : (s.set r (s.mem.word (s.get .sp))).get .sp = s.get .sp :=
    State.get_set_of_ne _ _ _ _ hr.symm
  simp only [Image.effects, Image.effect, evalOpImm, add_ofInt_zero, hload, Option.map_some,
    Option.bind_some, hsp]
  rfl

end ChocoRv.Rv32
