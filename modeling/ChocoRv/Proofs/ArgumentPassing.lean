import ChocoRv.Proofs.CallCode
import ChocoRv.Proofs.StackDiscipline
import ChocoRv.Proofs.StackWrites

/-!
# Passing arguments

The code of a call pushes a static link and one word for each argument. What an argument computes
stays where it was pushed while later ones are evaluated: their own stores are below it. At the
entry of the callee `fp` gets the value that `sp` has then, and so every word lies at an offset from
`fp` that only depends on how many words there are.
-/

namespace ChocoRv

open Asm Codegen Emit Rv32

/-! ### Words on the stack -/

namespace Rv32

/-- The words from `low` up to `high` are as they were. -/
def Untouched (low high : Word) (s s' : State) : Prop :=
  ∀ a, Aligned a → low.toNat ≤ a.toNat → a.toNat < high.toNat → s'.mem.word a = s.mem.word a

namespace Untouched

variable {low low' high : Word} {s s' s'' : State}

theorem of_mem (h : s'.mem = s.mem) : Untouched low high s s' := fun _ _ _ _ => by rw [h]

theorem trans (h : Untouched low high s s') (h' : Untouched low high s' s'') :
    Untouched low high s s'' :=
  fun a ha hle hlt => (h' a ha hle hlt).trans (h a ha hle hlt)

theorem mono (h : Untouched low high s s') (hle : low.toNat ≤ low'.toNat) :
    Untouched low' high s s' :=
  fun a ha hle' => h a ha (Nat.le_trans hle hle')

theorem of_setWord {a w : Word} (ha : Aligned a) (hlt : a.toNat < low.toNat)
    (h : s'.mem = s.mem.setWord a w) : Untouched low high s s' := by
  intro b hb hle _
  rw [h]
  refine Memory.word_setWord_of_ne _ _ ha hb ?_
  rintro rfl
  omega

end Untouched

theorem toNat_add_ofInt {a : Word} {z : Int} (h : 0 ≤ a.toNat + z) (hlt : a.toNat + z < 2 ^ 32) :
    ((a + BitVec.ofInt 32 z).toNat : Int) = a.toNat + z := by
  rw [BitVec.toNat_add, BitVec.toNat_ofInt]
  omega

end Rv32

section
variable {img : Image} {s s' : State}

/-- What an instruction may do to memory if it writes nothing but the stack. -/
theorem effect_writesStack {i : Instr} (hi : i.writesStack = true)
    (h : img.effect s i = some s') : s'.mem = s.mem ∨ ∃ r k, i = .store .sw r .sp k ∧
      Aligned (s.get .sp + BitVec.ofInt 32 k) ∧
      s'.mem = s.mem.setWord (s.get .sp + BitVec.ofInt 32 k) (s.get r) := by
  cases i with
  | store o r base k =>
    cases o with
    | sb => cases hi
    | sw =>
      cases base with
      | sp =>
        obtain ⟨ha, hs⟩ := Option.ite_none_right_eq_some.1 h
        obtain rfl := Option.some.inj hs
        exact .inr ⟨r, k, rfl, ha, rfl⟩
      | _ => cases hi
  | storeLabel => cases hi
  | load o rd base k =>
    cases o with
    | lw =>
      obtain ⟨w, -, rfl⟩ := Option.map_eq_some_iff.1 h
      exact .inl (State.mem_set ..)
    | lbu =>
      obtain rfl := Option.some.inj h
      exact .inl (State.mem_set ..)
  | loadLabel rd l =>
    obtain ⟨w, -, rfl⟩ := Option.map_eq_some_iff.1 h
    exact .inl (State.mem_set ..)
  | op | opImm | move | li | la =>
    obtain rfl := Option.some.inj h
    exact .inl (State.mem_set ..)
  | branch | branchZero | j | jal | jalr | jr | ecall => cases h

/-- A step in the code of an argument. What it calls comes back with `sp` as it was, and with the
words from `low` up to `high`: those that the call which takes the argument has pushed so far. It
may write anything else, also the variables of functions further up the stack. -/
structure EvalStep (img : Image) (start : Nat) (code : List Item) (low high : Word)
    (cfg cfg' : Rv32.Config) : Prop where
  step : BodyStep img start code cfg cfg'
  calls : ∀ n i c, cfg.pc = .at (start + n) → code[n]? = some (.instr i c) → i.isCall = true →
    Untouched low high cfg.state cfg'.state

/-- Code that keeps to its part of the stack. -/
structure Asm.Evaluable (code : List Item) : Prop where
  disciplined : Disciplined code
  writes : Asm.Every Instr.writesStack code

variable {code : List Item} {start : Nat} {high : Word} {cfg cfg' : Rv32.Config}

/-- A store of the code is below the stack as the code found it. -/
theorem EvalStep.untouched (hcode : Evaluable code) (hat : img.Holds start code)
    (hroom : ∀ m, -displacement code m ≤ (s.get .sp).toNat) (h : Displaced start code s cfg)
    (hstep : EvalStep img start code (s.get .sp) high cfg cfg') :
    Untouched (s.get .sp) high cfg.state cfg'.state := by
  obtain ⟨hstep, hcalls⟩ := hstep
  obtain ⟨m, -, hpc, hsp⟩ := h
  cases hstep with
  | call hn hi => exact hcalls _ _ _ rfl hn hi
  | @step n item s₁ cfg' hn hi hstep =>
    obtain rfl : n = m := by
      injection hpc with hpc
      omega
    have hmem := List.mem_of_getElem? hn
    simp only [Image.step, get_of_body hat hn] at hstep
    rcases hcode.disciplined.items item hmem with ⟨i, c, rfl⟩ | ⟨l, c, rfl⟩
    · rcases exec_cases (hi i c rfl) (hcode.disciplined.stays i c hmem) hstep with
        ⟨s₂, heffect, rfl⟩ | ⟨l, -, hstate, -⟩
      · rcases effect_writesStack (hcode.writes i c hmem) heffect with
          hmem | ⟨r, k, rfl, haligned, hmem⟩
        · exact .of_mem hmem
        · obtain ⟨hk, hlow⟩ := hcode.disciplined.slots n _ c k hn rfl
          have hdepth := hroom n
          have haddr : s₁.get .sp + BitVec.ofInt 32 k =
              s.get .sp + BitVec.ofInt 32 (displacement code n + k) := by
            rw [BitVec.ofInt_add, ← BitVec.add_assoc]
            exact congrArg (· + _) hsp
          rw [wordSize_eq] at hlow
          have hlt := (s.get .sp).isLt
          have hnat := toNat_add_ofInt (a := s.get .sp) (z := displacement code n + k)
            (by omega) (by omega)
          refine .of_setWord haligned ?_ hmem
          rw [haddr]
          omega
      · exact .of_mem (congrArg State.mem hstate)
    · obtain rfl := Option.some.inj hstep
      exact .of_mem rfl

/-- Along a run the code keeps what was on the stack. -/
theorem Asm.Evaluable.run (hcode : Evaluable code) (hat : img.Holds start code)
    (hnd : (defined img.code).Nodup)
    (hroom : ∀ m, -displacement code m ≤ (s.get .sp).toNat)
    (h : Relation.ReflTransGen (EvalStep img start code (s.get .sp) high) ⟨.at start, s⟩ cfg) :
    Untouched (s.get .sp) high s cfg.state ∧
      (Displaced start code s cfg ∨ ∃ l ∈ errorLabels, cfg.pc = img.target l) := by
  have hbody : ∀ {cfg}, Relation.ReflTransGen (EvalStep img start code (s.get .sp) high)
      ⟨.at start, s⟩ cfg → Displaced start code s cfg ∨ ∃ l ∈ errorLabels, cfg.pc = img.target l :=
    fun h => hcode.disciplined.run hat hnd (h.lift id fun _ _ hstep => hstep.step)
  refine ⟨?_, hbody h⟩
  induction h with
  | refl => exact .of_mem rfl
  | tail hrun hstep ih =>
    refine ih.trans (hstep.untouched hcode hat hroom ((hbody hrun).resolve_right ?_))
    exact fun ⟨l, hl, hpc⟩ => hstep.step.not_error hcode.disciplined hat l hl hpc

/-- A run that comes to the end of the code, where an instruction follows, has the stack as it
was. -/
theorem Asm.Evaluable.finish (hcode : Evaluable code) {i : Instr} {c : Bytes} {more : List Item}
    (hat : img.Holds start (code ++ .instr i c :: more)) (hnd : (defined img.code).Nodup)
    (hroom : ∀ m, -displacement code m ≤ (s.get .sp).toNat)
    (h : Relation.ReflTransGen (EvalStep img start code (s.get .sp) high) ⟨.at start, s⟩
      ⟨.at (start + code.length), s'⟩) :
    s'.get .sp = s.get .sp ∧ Untouched (s.get .sp) high s s' := by
  obtain ⟨hwords, ⟨m, -, hpc, hsp⟩ | ⟨l, -, hpc⟩⟩ := hcode.run hat.left hnd hroom h
  · obtain rfl : code.length = m := by
      injection hpc with hpc
      omega
    rw [hcode.disciplined.finish, add_ofInt_zero] at hsp
    exact ⟨hsp, hwords⟩
  · obtain ⟨item, hitem, hdef⟩ := defines_of_target hpc.symm
    cases hat.right.get.symm.trans hitem
    cases hdef

/-! ### Arguments -/

/-- The arguments are evaluated and pushed one after the other, below what the call started at. -/
inductive PushesArgs (img : Image) (high : Word) :
    Nat → List (List Item × Bytes) → State → List Word → State → Prop
  | nil {n : Nat} {s : State} : PushesArgs img high n [] s [] s
  | cons {n : Nat} {a : List Item × Bytes} {args : List (List Item × Bytes)} {ws : List Word}
      {s s₁ s₂ s₃ : State}
      (heval : Relation.ReflTransGen (EvalStep img n a.1 (s.get .sp) high) ⟨.at n, s⟩
        ⟨.at (n + a.1.length), s₁⟩)
      (hpush : img.effects s₁ (pushCode .a0 a.2) = some s₂)
      (hargs : PushesArgs img high (n + a.1.length + 2) args s₂ ws s₃) :
    PushesArgs img high n (a :: args) s (s₁.get .a0 :: ws) s₃

/-- What is on the stack after `n` arguments. -/
structure ArgsPushed (high : Word) (n : Nat) (s s' : State) (ws : List Word) : Prop where
  count : ws.length = n
  sp : (s'.get .sp).toNat + 4 * n = (s.get .sp).toNat
  aligned : Aligned (s'.get .sp)
  untouched : Untouched (s.get .sp) high s s'
  words : ∀ (i : Nat) (w : Word), ws[i]? = some w →
    s'.mem.word (s'.get .sp + BitVec.ofInt 32 (wordSize * (n - 1 - i : Int))) = w

theorem displacement_append_left {code : List Item} (more : List Item) {m : Nat}
    (h : m ≤ code.length) : displacement (code ++ more) m = displacement code m := by
  rw [displacement, List.take_append_of_le_length h]
  rfl

theorem displacement_append_right (code more : List Item) (m : Nat) :
    displacement (code ++ more) (code.length + m) = net code + displacement more m := by
  rw [displacement, List.take_length_add_append, net_append]
  rfl

/-- The displacements in some code are among those in longer code that begins with it. -/
theorem displacement_min (code more : List Item) (m : Nat) :
    displacement code m = displacement (code ++ more) (min m code.length) := by
  rw [displacement_append_left _ (Nat.min_le_right ..), displacement, List.take_eq_take_min]
  rfl

theorem net_pushCode (r : Reg) (c : Bytes) : net (pushCode r c) = -4 := rfl

theorem effects_pushCode (img : Image) {s : State} {r : Reg} (hr : r ≠ .sp)
    (h : Aligned (s.get .sp)) (c : Bytes) : img.effects s (pushCode r c) = some (pushed s r) :=
  effects_push img hr h [] c []

/-- The words above the top of the stack, by their distance from it. -/
theorem add_ofInt_mul {a b : Word} {n : Nat} (h : a.toNat + 4 * n = b.toNat) :
    a + BitVec.ofInt 32 (wordSize * (n : Int)) = b := by
  have hlt := b.isLt
  rw [wordSize_eq]
  have hnat := toNat_add_ofInt (a := a) (z := 4 * n) (by omega) (by omega)
  exact BitVec.eq_of_toNat_eq (by omega)

theorem Asm.Evaluable.net_eq_zero {code : List Item} (h : Evaluable code) : net code = 0 := by
  have hfinish := h.disciplined.finish
  rwa [displacement, List.take_length] at hfinish

theorem net_argsCode {args : List (List Item × Bytes)} (h : ∀ a ∈ args, Evaluable a.1) :
    net (argsCode args) = -4 * args.length := by
  induction args with
  | nil => rfl
  | cons a args ih =>
    obtain ⟨ha, hargs⟩ := List.forall_mem_cons.1 h
    rw [argsCode_cons, net_append, net_append, ha.net_eq_zero, net_pushCode, ih hargs,
      List.length_cons]
    omega

/-- What was on top of the stack stands above the arguments. -/
theorem ArgsPushed.top {n : Nat} {ws : List Word} (h : ArgsPushed high n s s' ws)
    (hsp : Aligned (s.get .sp)) (hhigh : (s.get .sp).toNat < high.toNat) :
    s'.mem.word (s'.get .sp + BitVec.ofInt 32 (wordSize * (n : Int))) =
      s.mem.word (s.get .sp) := by
  rw [add_ofInt_mul h.sp, h.untouched _ hsp (Nat.le_refl _) hhigh]

/-- One more argument under the others. -/
theorem ArgsPushed.cons {n : Nat} {r : Reg} {s₁ : State} {ws : List Word}
    (hsp₁ : s₁.get .sp = s.get .sp) (hwords₁ : Untouched (s.get .sp) high s s₁)
    (hsp : Aligned (s.get .sp)) (hfour : 4 ≤ (s.get .sp).toNat)
    (hhigh : (s.get .sp).toNat ≤ high.toNat) (h : ArgsPushed high n (pushed s₁ r) s' ws) :
    ArgsPushed high (n + 1) s s' (s₁.get r :: ws) := by
  have haligned₂ := aligned_sp_pushed (hsp₁ ▸ hsp) r
  have hsp₂ := toNat_sp_pushed (hsp₁ ▸ hfour) r
  rw [hsp₁] at hsp₂
  have hmem : (pushed s₁ r).mem = s₁.mem.setWord ((pushed s₁ r).get .sp) (s₁.get r) := by
    rw [mem_pushed, sp_pushed]
  have hwords₂ : Untouched (s.get .sp) high s₁ (pushed s₁ r) :=
    .of_setWord haligned₂ (by omega) hmem
  refine ⟨by rw [List.length_cons, h.count], ?_, h.aligned,
    (hwords₁.trans hwords₂).trans (h.untouched.mono (by omega)), fun i w hi => ?_⟩
  · have hsp₃ := h.sp
    omega
  · cases i with
    | zero =>
      obtain rfl := Option.some.inj hi
      rw [show ((n + 1 : Nat) - 1 - (0 : Nat) : Int) = (n : Nat) by omega,
        h.top haligned₂ (by omega), word_pushed]
    | succ i =>
      rw [show ((n + 1 : Nat) - 1 - (i + 1 : Nat) : Int) = (n : Nat) - 1 - (i : Nat) by omega]
      exact h.words i w hi

theorem PushesArgs.pushed {img : Image} {n : Nat} {args : List (List Item × Bytes)}
    {s s' : State} {ws : List Word} (h : PushesArgs img high n args s ws s')
    (hargs : ∀ a ∈ args, Evaluable a.1) {more : List Item}
    (hat : img.Holds n (argsCode args ++ more)) (hnd : (defined img.code).Nodup)
    (hsp : Aligned (s.get .sp)) (hhigh : (s.get .sp).toNat ≤ high.toNat)
    (hroom : ∀ m, -displacement (argsCode args) m ≤ (s.get .sp).toNat) :
    ArgsPushed high args.length s s' ws := by
  induction h with
  | nil => exact ⟨rfl, rfl, hsp, .of_mem rfl, by simp⟩
  | @cons n a args ws s s₁ s₂ s₃ heval hpush hrest ih =>
    obtain ⟨ha, hargs⟩ := List.forall_mem_cons.1 hargs
    rw [argsCode_cons] at hat hroom
    have hat' : img.Holds n (a.1 ++ .instr (.opImm .addi .sp .sp (-wordSize)) [] ::
        (.instr (.store .sw .a0 .sp 0) a.2 :: (argsCode args ++ more))) := by
      simpa [pushCode] using hat
    have hroom' : ∀ m, -displacement a.1 m ≤ (s.get .sp).toNat := by
      intro m
      rw [displacement_min _ (pushCode .a0 a.2 ++ argsCode args)]
      exact hroom _
    obtain ⟨hsp₁, hwords₁⟩ := ha.finish hat' hnd hroom' heval
    have haligned₁ : Aligned (s₁.get .sp) := hsp₁ ▸ hsp
    cases (effects_pushCode img (by decide) haligned₁ a.2).symm.trans hpush
    have hdepth : ∀ m, 4 - displacement (argsCode args) m ≤ (s.get .sp).toNat := by
      intro m
      have hm := hroom (a.1.length + (2 + m))
      rw [displacement_append_right, ha.net_eq_zero] at hm
      have hpushed : displacement (pushCode .a0 a.2 ++ argsCode args) (2 + m) =
          -4 + displacement (argsCode args) m := displacement_append_right (pushCode .a0 a.2) _ m
      omega
    have hfour : 4 ≤ (s.get .sp).toNat := by
      have hzero := hdepth 0
      have hnone : displacement (argsCode args) 0 = 0 := rfl
      omega
    have hsp₂ := toNat_sp_pushed (hsp₁ ▸ hfour) .a0
    rw [hsp₁] at hsp₂
    refine .cons hsp₁ hwords₁ hsp hfour hhigh (ih hargs hat'.right.tail.tail
      (aligned_sp_pushed haligned₁ _) (by omega) fun m => ?_)
    have hm := hdepth m
    omega

end

/-! ### From a call to its callee -/

/-- The words that a call has pushed, where the frame of a function has them. -/
structure Frame.Receives (f : Frame) (s : State) (link : Word) (ws : List Word) : Prop where
  count : ws.length = f.params.length
  args : ∀ (i : Nat) (w : Word), ws[i]? = some w →
    s.mem.word (s.get .fp + BitVec.ofInt 32 (f.paramOffset i)) = w
  link : s.mem.word (s.get .fp + BitVec.ofInt 32 f.staticLink) = link

namespace CallParts

/-- The stack can take what the code pushes and what the callee saves. -/
def HasRoom (k : CallParts) (s : State) : Prop :=
  ∀ m, 8 - displacement k.code m ≤ (s.get .sp).toNat

/-- The code runs from its start, at item number `n`, to the point where it goes to the callee. On
the way it pushes a static link and some words. -/
def Runs (img : Image) (n : Nat) (k : CallParts) (s s' : State) (link : Word)
    (ws : List Word) : Prop :=
  ∃ s₁ s₂, img.effects s k.link = some s₁ ∧ s₁.get .t0 = link ∧
    img.effects s₁ (pushCode .t0 (txt "static link")) = some s₂ ∧
    PushesArgs img (s.get .sp) (n + (k.link.length + 2)) k.args s₂ ws s'

/-- The static link and `n` arguments are on top of the stack. -/
structure Pushed (n : Nat) (s s' : State) (link : Word) (ws : List Word) : Prop where
  count : ws.length = n
  sp : (s'.get .sp).toNat + 4 * (n + 1) = (s.get .sp).toNat
  aligned : Aligned (s'.get .sp)
  room : 8 ≤ (s'.get .sp).toNat
  args : ∀ (i : Nat) (w : Word), ws[i]? = some w →
    s'.mem.word (s'.get .sp + BitVec.ofInt 32 (wordSize * (n - 1 - i : Int))) = w
  link : s'.mem.word (s'.get .sp + BitVec.ofInt 32 (wordSize * (n : Int))) = link

end CallParts

section
variable {img : Image} {s s' : State} {code : List Item} {n : Nat} {k : CallParts} {link : Word}
  {ws : List Word}

theorem effect_isSilent {i : Instr} (hi : i.isSilent = true) (h : img.effect s i = some s') :
    s'.mem = s.mem := by
  rcases effect_writesStack (Instr.writesStack_of_isSilent hi) h with hmem | ⟨r, k, rfl, -⟩
  · exact hmem
  · cases hi

theorem Asm.Instr.isWalk_eq {i : Instr} (h : i.isWalk = true) :
    i.isSilent = true ∧ i.dest? = some .t0 ∧ i.shift = 0 := by
  unfold Instr.isWalk at h
  split at h
  · exact ⟨rfl, rfl, rfl⟩
  · exact ⟨rfl, rfl, rfl⟩
  · cases h

theorem net_of_isWalk (h : Asm.Every Instr.isWalk code) : net code = 0 := by
  induction code with
  | nil => rfl
  | cons item code ih =>
    have hrest := ih fun i c hi => h i c (List.mem_cons_of_mem _ hi)
    have hshift : item.shift = 0 := by
      cases item with
      | instr i c => exact (Instr.isWalk_eq (h i c (List.mem_cons_self ..))).2.2
      | _ => rfl
    rw [net_cons, hrest, hshift, Int.add_zero]

theorem effects_isWalk (h : Asm.Every Instr.isWalk code) (heffects : img.effects s code = some s') :
    (∀ r, r ≠ .t0 → s'.get r = s.get r) ∧ s'.mem = s.mem := by
  induction code generalizing s with
  | nil =>
    obtain rfl := Option.some.inj heffects
    exact ⟨fun _ _ => rfl, rfl⟩
  | cons item code ih =>
    cases item with
    | instr i c =>
      obtain ⟨s₁, heffect, hrest⟩ := Option.bind_eq_some_iff.1 heffects
      obtain ⟨hsilent, hdest, -⟩ := Instr.isWalk_eq (h i c (List.mem_cons_self ..))
      obtain ⟨hregs, hmem⟩ := ih (fun i c hi => h i c (List.mem_cons_of_mem _ hi)) hrest
      refine ⟨fun r hr => (hregs r hr).trans (effect_keeps ?_ heffect),
        hmem.trans (effect_isSilent hsilent heffect)⟩
      rw [hdest]
      exact fun heq => hr (Option.some.inj heq).symm
    | _ => cases heffects

/-- What a run of the code of a call leaves on the stack. -/
theorem CallParts.Runs.pushed (h : k.Runs img n s s' link ws)
    (hlink : Asm.Every Instr.isWalk k.link) (hargs : ∀ a ∈ k.args, Evaluable a.1)
    (hat : img.Holds n k.code) (hnd : (defined img.code).Nodup) (hsp : Aligned (s.get .sp))
    (hroom : k.HasRoom s) : CallParts.Pushed k.args.length s s' link ws := by
  obtain ⟨s₁, s₂, heffects, rfl, hpush, hpushes⟩ := h
  have hsp₁ := (effects_isWalk hlink heffects).1 .sp (by decide)
  have haligned₁ : Aligned (s₁.get .sp) := hsp₁ ▸ hsp
  cases (effects_pushCode img (by decide) haligned₁ _).symm.trans hpush
  have hcode : k.code = (k.link ++ pushCode .t0 (txt "static link")) ++
      (argsCode k.args ++ (k.transfer ++ k.release)) := by simp [CallParts.code]
  rw [hcode] at hat
  have hat' := hat.right
  rw [List.length_append] at hat'
  have hdepth : ∀ m, 12 - displacement (argsCode k.args ++ (k.transfer ++ k.release)) m ≤
      (s.get .sp).toNat := by
    intro m
    have hm := hroom ((k.link ++ pushCode .t0 (txt "static link")).length + m)
    rw [hcode, displacement_append_right, net_append, net_of_isWalk hlink, net_pushCode] at hm
    omega
  have htwelve : 12 ≤ (s.get .sp).toNat := by
    have hzero := hdepth 0
    have hnone : displacement (argsCode k.args ++ (k.transfer ++ k.release)) 0 = 0 := rfl
    omega
  have hsp₂ := toNat_sp_pushed (s := s₁) (by rw [hsp₁]; omega) .t0
  rw [hsp₁] at hsp₂
  have haligned₂ := aligned_sp_pushed haligned₁ .t0
  have hroom₂ : ∀ m, 8 - displacement (argsCode k.args) m ≤
      ((Rv32.pushed s₁ .t0).get .sp).toNat := by
    intro m
    have hm := hdepth (min m (argsCode k.args).length)
    rw [← displacement_min] at hm
    omega
  have hpushed := hpushes.pushed hargs hat' hnd haligned₂ (by omega) fun m => by
    have hm := hroom₂ m
    omega
  have hsp' := hpushed.sp
  have hend := hroom₂ (argsCode k.args).length
  rw [displacement, List.take_length, net_argsCode hargs] at hend
  refine ⟨hpushed.count, by omega, hpushed.aligned, by omega, hpushed.words, ?_⟩
  rw [hpushed.top haligned₂ (by omega), word_pushed]

/-- At the entry of a function `fp` gets the value of `sp`, and only words below it are written. -/
theorem entry_effects (img : Image) (globals : Scope) (layouts : List ClassLayout) (t : FrameSite)
    (hsp : Aligned (s.get .sp)) (hroom : 8 ≤ (s.get .sp).toNat) :
    ∃ s', img.effects s ((Routine.ofSite globals layouts t).entry.drop 2) = some s' ∧
      s'.get .fp = s.get .sp ∧ ∀ high, Untouched (s.get .sp) high s s' :=
  ⟨framed s t.frame.size, effects_entry globals layouts t img hsp, fp_framed s _,
    fun _ _ ha hle _ => word_framed_of_le hsp hroom ha hle⟩

/-- An instruction that neither writes memory nor `sp` leaves both as they are, whatever is next. -/
theorem exec_keeps {i : Instr} (hi : i.isSilent = true) (hdest : i.dest? ≠ some .sp)
    (hcall : ∀ l, i = .jal l → ∃ m, img.target l = .at m) {st : State} {cfg : Rv32.Config}
    (h : img.exec n st i = some cfg) : cfg.state.get .sp = st.get .sp ∧ cfg.state.mem = st.mem := by
  cases i with
  | jal l =>
    obtain ⟨m, hm⟩ := hcall l rfl
    simp only [Image.exec, hm] at h
    obtain rfl := Option.some.inj h
    exact ⟨sp_set_of_ne _ (r := .ra) _ (by decide), State.mem_set ..⟩
  | jalr r =>
    obtain rfl := Option.some.inj h
    exact ⟨sp_set_of_ne _ (r := .ra) _ (by decide), State.mem_set ..⟩
  | jr r =>
    obtain rfl := Option.some.inj h
    exact ⟨rfl, rfl⟩
  | ecall => cases h
  | store | storeLabel => cases hi
  | branch | branchZero | j | op | opImm | move | li | la | load | loadLabel =>
    rcases exec_cases rfl rfl h with ⟨s', heffect, rfl⟩ | ⟨l, -, hstate, -⟩
    · exact ⟨effect_keeps hdest heffect, effect_isSilent hi heffect⟩
    · rw [hstate]
      exact ⟨rfl, rfl⟩

end

end ChocoRv
