import ChocoRv.Proofs.FrameCode
import ChocoRv.Proofs.Steady
import ChocoRv.Proofs.Totality
import Mathlib.Logic.Relation

/-!
# Stack discipline

In the body of a routine `sp` has one displacement before each item, relative to its value after
the entry: the sum of what the items before it move. Jumps in the body go to labels at the same
displacement, accesses to the stack stay inside what is pushed, and a run of the machine in which
calls keep `sp` finds it displaced so. Each statement starts and ends at displacement 0.

The exit of a function is not part of the body: it takes `sp` from `fp` and finds the caller's `fp`
in the frame that it has just left, in the word that the entry has saved (`Routine.Restores`).
-/

namespace ChocoRv

open Asm Codegen Emit Rv32

/-! ### Disciplined code -/

namespace Asm

namespace Instr

def isCall : Instr → Bool
  | jal _ | jalr _ => true
  | _ => false

theorem shift_of_isCall {i : Instr} (h : i.isCall = true) : i.shift = 0 := by
  cases i with
  | jal | jalr => rfl
  | _ => cases h

theorem label?_of_jump? {i : Instr} {l : Label} (h : i.jump? = some l) : i.label? = some l := by
  cases i <;> first | exact h | cases h

end Instr

/-- How far `sp` is moved before item number `n`. -/
def displacement (code : List Item) (n : Nat) : Int := net (code.take n)

/-- Code that respects the stack, along all its paths. -/
structure Disciplined (body : List Item) : Prop where
  /-- There are only instructions and labels. -/
  items : ∀ item ∈ body, (∃ i c, item = .instr i c) ∨ ∃ l c, item = .label l c
  /-- Control only leaves the code by a jump, by a call or at the end. -/
  stays : ∀ i c, .instr i c ∈ body → i.isExit = false
  /-- Nothing moves `sp` but the addition of a constant. -/
  moves : ∀ i c, .instr i c ∈ body → i.dest? = some .sp → ∃ k, i = .opImm .addi .sp .sp k
  nonpos : ∀ n, displacement body n ≤ 0
  finish : displacement body body.length = 0
  /-- An access reaches a word that is pushed and not yet popped. -/
  slots : ∀ n i c k, body[n]? = some (.instr i c) → i.stackSlot? = some k →
    0 ≤ k ∧ k + wordSize ≤ -displacement body n
  /-- A jump goes out to an error or to a label of the code at the same displacement. -/
  edges : ∀ n i c l, body[n]? = some (.instr i c) → i.jump? = some l → l ∉ errorLabels →
    l ∈ defined body ∧ ∀ m item, body[m]? = some item → item.defines? = some l →
      displacement body m = displacement body n
  errors : ∀ l ∈ errorLabels, l ∉ defined body

variable {lev : Label → Int → Prop} {d : Int} {code : List Item}

theorem Tidy.get (h : Tidy lev d code) {n : Nat} {i : Item} (hn : code[n]? = some i) :
    i.Tidy lev (d + displacement code n) := by
  induction code generalizing d n with
  | nil => cases hn
  | cons j code ih =>
    cases n with
    | zero =>
      cases hn
      simpa [displacement] using h.1
    | succ n =>
      have htail := ih h.2 hn
      rwa [Int.add_assoc] at htail

theorem mem_levels {x : Label × Int} (h : x ∈ levels d code) :
    ∃ n i, code[n]? = some i ∧ i.defines? = some x.1 ∧ x.2 = d + displacement code n := by
  induction code generalizing d with
  | nil => cases h
  | cons j code ih =>
    rcases List.mem_append.1 h with h | h
    · obtain ⟨l, hl, rfl⟩ := Option.mem_map.1 (Option.mem_toList.1 h)
      exact ⟨0, j, rfl, hl, by simp [displacement]⟩
    · obtain ⟨n, i, hn, hi, hx⟩ := ih h
      exact ⟨n + 1, i, hn, hi, by rw [hx, Int.add_assoc]; rfl⟩

theorem displacement_cons (i : Item) (code : List Item) (n : Nat) :
    displacement (i :: code) (n + 1) = i.shift + displacement code n := by
  simp [displacement]

theorem displacement_succ {n : Nat} {i : Item} (hn : code[n]? = some i) :
    displacement code (n + 1) = displacement code n + i.shift := by
  rw [displacement, List.take_add_one, hn, net_append]
  simp [displacement]

theorem displacement_append_length (code more : List Item) :
    displacement (code ++ more) code.length = net code := by
  rw [displacement, List.take_left]

theorem Tidy.nonpos (h : Tidy lev d code) (hd : d ≤ 0) (n : Nat) :
    d + displacement code n ≤ 0 := by
  induction code generalizing d n with
  | nil => simpa [displacement] using hd
  | cons i code ih =>
    cases n with
    | zero => simpa [displacement] using hd
    | succ n =>
      have hi : d + i.shift ≤ 0 := by
        cases i with
        | instr i c => exact h.1.top
        | label l c => simpa using hd
        | _ => exact h.1.elim
      have htail := ih h.2 hi n
      rw [displacement_cons]
      omega

/-- Where no label is defined twice, each has one place. -/
theorem place_unique (hnd : (defined code).Nodup) {m n : Nat} {i j : Item} {l : Label}
    (hm : code[m]? = some i) (hi : i.defines? = some l) (hn : code[n]? = some j)
    (hj : j.defines? = some l) : m = n := by
  have hpair := List.pairwise_iff_getElem.1 (List.pairwise_filterMap.1 hnd)
  obtain ⟨hm', rfl⟩ := List.getElem?_eq_some_iff.1 hm
  obtain ⟨hn', rfl⟩ := List.getElem?_eq_some_iff.1 hn
  rcases Nat.lt_trichotomy m n with hlt | heq | hlt
  · exact absurd rfl (hpair m n hm' hn' hlt l hi l hj)
  · exact heq
  · exact absurd rfl (hpair n m hn' hm' hlt l hj l hi)

/-- Tidy code is disciplined if `lev` knows no other labels than its own and those of errors. -/
theorem Moves.disciplined (h : Moves lev 0 code 0) (hlev : Levels lev 0 code)
    (hjump : ∀ l ∈ referred code, ∀ d, lev l d → l ∈ errorLabels ∨ (l, d) ∈ levels 0 code)
    (hnd : (defined code).Nodup) (herrors : ∀ l ∈ errorLabels, l ∉ defined code) :
    Disciplined code := by
  have htidy := h.tidy hlev
  have hget : ∀ (n : Nat) (i : Instr) (c : Bytes), code[n]? = some (.instr i c) →
      i.Tidy lev (displacement code n) := by
    intro n i c hn
    have hi := htidy.get hn
    rwa [Int.zero_add] at hi
  have hmem : ∀ (i : Instr) (c : Bytes), Item.instr i c ∈ code → ∃ d, i.Tidy lev d := by
    intro i c hi
    obtain ⟨n, hn⟩ := List.mem_iff_getElem?.1 hi
    exact ⟨_, hget n i c hn⟩
  refine ⟨fun item hitem => ?_, fun i c hi => ?_, fun i c hi => ?_, fun n => ?_, ?_,
    fun n i c k hn hk => (hget n i c hn).slot k hk, fun n i c l hn hl hne => ?_, herrors⟩
  · obtain ⟨n, hn⟩ := List.mem_iff_getElem?.1 hitem
    have hi := htidy.get hn
    cases item with
    | instr i c => exact .inl ⟨i, c, rfl⟩
    | label l c => exact .inr ⟨l, c, rfl⟩
    | _ => exact hi.elim
  · obtain ⟨d, hd⟩ := hmem i c hi
    exact hd.stays
  · obtain ⟨d, hd⟩ := hmem i c hi
    exact hd.moves
  · have hn := htidy.nonpos (Int.le_refl 0) n
    rwa [Int.zero_add] at hn
  · rw [displacement, List.take_length]
    exact h.net_eq_zero
  · have href : l ∈ referred code :=
      List.mem_filterMap.2 ⟨_, List.mem_of_getElem? hn, Instr.label?_of_jump? hl⟩
    rcases hjump l href _ ((hget n i c hn).jump l hl) with herr | hmem
    · exact absurd herr hne
    · obtain ⟨m, item, hm, hdef, hd⟩ := mem_levels hmem
      refine ⟨List.mem_filterMap.2 ⟨item, List.mem_of_getElem? hm, hdef⟩, fun m' item' hm' hdef' => ?_⟩
      obtain rfl := place_unique hnd hm hdef hm' hdef'
      rw [Int.zero_add] at hd
      exact hd.symm

end Asm

/-! ### Runs of disciplined code -/

/-- A step of the machine in a body that stands at item number `start`. Calls come back to the next
item with `sp` as it was. -/
inductive BodyStep (img : Image) (start : Nat) (body : List Item) : Rv32.Config → Rv32.Config → Prop
  | call {n : Nat} {i : Instr} {c : Bytes} {s s' : State} (hn : body[n]? = some (.instr i c))
      (hi : i.isCall = true) (hsp : s'.get .sp = s.get .sp) :
      BodyStep img start body ⟨.at (start + n), s⟩ ⟨.at (start + n + 1), s'⟩
  | step {n : Nat} {item : Item} {s : State} {cfg : Rv32.Config} (hn : body[n]? = some item)
      (hi : ∀ i c, item = .instr i c → i.isCall = false)
      (hstep : img.step ⟨.at (start + n), s⟩ = some cfg) :
      BodyStep img start body ⟨.at (start + n), s⟩ cfg

section
variable {img : Image} {start : Nat} {body : List Item} {s s' : State}

/-- Only the register that an instruction writes changes. -/
theorem effect_keeps {i : Instr} {r : Reg} (hi : i.dest? ≠ some r)
    (h : img.effect s i = some s') : s'.get r = s.get r := by
  have hset : ∀ (s : State) {rd : Reg} (w : Word), some rd ≠ some r →
      (s.set rd w).get r = s.get r := fun s rd w hne =>
    State.get_set_of_ne _ _ _ _ fun heq => hne (congrArg some heq.symm)
  have hstore : ∀ {a w : Word} {s' : State}, s.store a w = some s' → s'.get r = s.get r := by
    intro a w s' h
    unfold State.store at h
    split at h
    · obtain rfl := Option.some.inj h
      exact State.get_setWord ..
    · cases h
  cases i with
  | op | opImm | move | li | la =>
    obtain rfl := Option.some.inj h
    exact hset _ _ hi
  | load o rd base k =>
    cases o with
    | lw =>
      obtain ⟨w, -, rfl⟩ := Option.map_eq_some_iff.1 h
      exact hset _ _ hi
    | lbu =>
      obtain rfl := Option.some.inj h
      exact hset _ _ hi
  | store o rs base k =>
    cases o with
    | sw => exact hstore h
    | sb =>
      obtain rfl := Option.some.inj h
      cases r <;> rfl
  | loadLabel rd l =>
    obtain ⟨w, -, rfl⟩ := Option.map_eq_some_iff.1 h
    exact hset _ _ hi
  | storeLabel rs l tmp =>
    obtain ⟨s₁, hs₁, rfl⟩ := Option.map_eq_some_iff.1 h
    exact (hset _ _ hi).trans (hstore hs₁)
  | branch | branchZero | j | jal | jalr | jr | ecall => cases h

/-- An instruction that goes on to the next one moves `sp` by its shift. -/
theorem effect_sp {i : Instr} (hi : i.dest? = some .sp → ∃ k, i = .opImm .addi .sp .sp k)
    (h : img.effect s i = some s') : s'.get .sp = s.get .sp + BitVec.ofInt 32 i.shift := by
  by_cases hsp : i.dest? = some .sp
  · obtain ⟨k, rfl⟩ := hi hsp
    obtain rfl := Option.some.inj h
    exact State.get_set_self _ _ _ (by decide)
  · have hshift : i.shift = 0 := by
      unfold Instr.shift
      split
      · exact absurd rfl hsp
      · rfl
    rw [effect_keeps hsp h, hshift, add_ofInt_zero]

theorem exec_of_effect {n : Nat} {i : Instr} (hcall : i.isCall = false) (hexit : i.isExit = false)
    (hjump : i.jump? = none) : img.exec n s i = (img.effect s i).map (⟨.at (n + 1), ·⟩) := by
  cases i with
  | branch | branchZero | j => cases hjump
  | jal | jalr => cases hcall
  | jr | ecall => cases hexit
  | op | opImm | move | li | la | load | store | loadLabel | storeLabel => rfl

/-- An instruction goes on to the next one, or it may jump. -/
theorem exec_cases {n : Nat} {i : Instr} {cfg : Rv32.Config} (hcall : i.isCall = false)
    (hexit : i.isExit = false) (h : img.exec n s i = some cfg) :
    (∃ s', img.effect s i = some s' ∧ cfg = ⟨.at (n + 1), s'⟩) ∨
      ∃ l, i.jump? = some l ∧ cfg.state = s ∧ (cfg.pc = img.target l ∨ cfg.pc = .at (n + 1)) := by
  cases hjump : i.jump? with
  | none =>
    rw [exec_of_effect hcall hexit hjump] at h
    obtain ⟨s', hs', rfl⟩ := Option.map_eq_some_iff.1 h
    exact .inl ⟨s', hs', rfl⟩
  | some l =>
    refine .inr ⟨l, rfl, ?_⟩
    cases i with
    | branch c r₁ r₂ l' =>
      obtain rfl := Option.some.inj hjump
      obtain rfl := Option.some.inj h
      exact ⟨rfl, ite_eq_or_eq _ _ _⟩
    | branchZero c r l' =>
      obtain rfl := Option.some.inj hjump
      obtain rfl := Option.some.inj h
      exact ⟨rfl, ite_eq_or_eq _ _ _⟩
    | j l' =>
      obtain rfl := Option.some.inj hjump
      obtain rfl := Option.some.inj h
      exact ⟨rfl, .inl rfl⟩
    | op | opImm | move | li | la | load | store | loadLabel | storeLabel | jal | jalr | jr
    | ecall => cases hjump

/-- A label of the body is reached where it stands. -/
theorem target_of_body (hat : img.Holds start body) (hnd : (defined img.code).Nodup) {m : Nat}
    {item : Item} {l : Label} (hm : body[m]? = some item) (hl : item.defines? = some l) :
    img.target l = .at (start + m) := by
  obtain ⟨hlt, rfl⟩ := List.getElem?_eq_some_iff.1 hm
  have hsplit : body = body.take m ++ body[m] :: body.drop (m + 1) := by
    rw [← List.drop_eq_getElem_cons hlt, List.take_append_drop]
  rw [hsplit] at hat
  have htarget := hat.right.target hl hnd
  rwa [List.length_take_of_le (Nat.le_of_lt hlt)] at htarget

theorem get_of_body (hat : img.Holds start body) {n : Nat} {item : Item}
    (hn : body[n]? = some item) : img.code[start + n]? = some item := by
  obtain ⟨pre, post, hcode, rfl⟩ := hat
  rw [hcode, List.append_assoc, List.getElem?_append_right (Nat.le_add_right ..),
    Nat.add_sub_cancel_left, List.getElem?_append_left (List.getElem?_eq_some_iff.1 hn).1]
  exact hn

/-- Where a label is, it is defined. -/
theorem defines_of_target {l : Label} {k : Nat} (h : img.target l = .at k) :
    ∃ item, img.code[k]? = some item ∧ item.defines? = some l := by
  unfold Image.target at h
  split at h
  · rename_i n hn
    obtain rfl : n = k := Pc.at.inj h
    obtain ⟨hlt, hdef, -⟩ := List.findIdx?_eq_some_iff_getElem.1 hn
    exact ⟨_, List.getElem?_eq_getElem hlt, eq_of_beq hdef⟩
  · cases h

/-- In the body, with `sp` displaced as the body says from what it was in `s`. -/
def Displaced (start : Nat) (body : List Item) (s : State) (cfg : Rv32.Config) : Prop :=
  ∃ n ≤ body.length, cfg.pc = .at (start + n) ∧
    cfg.state.get .sp = s.get .sp + BitVec.ofInt 32 (displacement body n)

theorem Displaced.next {n : Nat} {item : Item} (hn : body[n]? = some item)
    (hsp : s'.get .sp = s.get .sp + BitVec.ofInt 32 (displacement body n + item.shift)) :
    Displaced start body s ⟨.at (start + n + 1), s'⟩ := by
  refine ⟨n + 1, (List.getElem?_eq_some_iff.1 hn).1, rfl, ?_⟩
  rw [displacement_succ hn]
  exact hsp

theorem Displaced.next_of_shift {n : Nat} {item : Item} (hn : body[n]? = some item)
    (hshift : item.shift = 0)
    (hsp : s'.get .sp = s.get .sp + BitVec.ofInt 32 (displacement body n)) :
    Displaced start body s ⟨.at (start + n + 1), s'⟩ :=
  .next hn (by rw [hshift, Int.add_zero, hsp])

/-- A jump goes to a place in the body with the same displacement or leaves for an error. -/
theorem Asm.Disciplined.jump (hd : Disciplined body) (hat : img.Holds start body)
    (hnd : (defined img.code).Nodup) {n : Nat} {i : Instr} {c : Bytes} {l : Label}
    (hn : body[n]? = some (.instr i c)) (hl : i.jump? = some l)
    (hsp : s'.get .sp = s.get .sp + BitVec.ofInt 32 (displacement body n)) :
    Displaced start body s ⟨img.target l, s'⟩ ∨ l ∈ errorLabels := by
  by_cases herr : l ∈ errorLabels
  · exact .inr herr
  · obtain ⟨hdef, hlevel⟩ := hd.edges n i c l hn hl herr
    obtain ⟨target, htarget, hdef⟩ := List.mem_filterMap.1 hdef
    obtain ⟨m, hm⟩ := List.mem_iff_getElem?.1 htarget
    refine .inl ⟨m, Nat.le_of_lt (List.getElem?_eq_some_iff.1 hm).1,
      target_of_body hat hnd hm hdef, ?_⟩
    rw [hlevel m target hm hdef]
    exact hsp

/-- An instruction that calls nothing keeps to the displacements or leaves for an error. -/
theorem Asm.Disciplined.exec (hd : Disciplined body) (hat : img.Holds start body)
    (hnd : (defined img.code).Nodup) {n : Nat} {i : Instr} {c : Bytes} {cfg : Rv32.Config}
    (hn : body[n]? = some (.instr i c)) (hcall : i.isCall = false)
    (hsp : s'.get .sp = s.get .sp + BitVec.ofInt 32 (displacement body n))
    (h : img.exec (start + n) s' i = some cfg) :
    Displaced start body s cfg ∨ ∃ l ∈ errorLabels, cfg.pc = img.target l := by
  have hmem := List.mem_of_getElem? hn
  rcases exec_cases hcall (hd.stays i c hmem) h with
    ⟨s₂, heffect, rfl⟩ | ⟨l, hl, hstate, hpc⟩
  · refine .inl (.next hn ?_)
    rw [effect_sp (hd.moves i c hmem) heffect, Item.shift_instr, BitVec.ofInt_add,
      ← BitVec.add_assoc, hsp]
  · obtain ⟨pc, s₂⟩ := cfg
    obtain rfl : s₂ = s' := hstate
    rcases hpc with hpc | hpc
    · obtain rfl : pc = img.target l := hpc
      exact (hd.jump hat hnd hn hl hsp).imp_right fun herr => ⟨l, herr, rfl⟩
    · obtain rfl : pc = .at (start + n + 1) := hpc
      exact .inl (.next_of_shift hn (Instr.shift_of_jump hl) hsp)

/-- One step keeps to the displacements or leaves for an error. -/
theorem BodyStep.displaced (hd : Disciplined body) (hat : img.Holds start body)
    (hnd : (defined img.code).Nodup) {cfg cfg' : Rv32.Config} (h : Displaced start body s cfg)
    (hstep : BodyStep img start body cfg cfg') :
    Displaced start body s cfg' ∨ ∃ l ∈ errorLabels, cfg'.pc = img.target l := by
  obtain ⟨m, -, hpc, hsp⟩ := h
  cases hstep with
  | @call n i c s₁ s₂ hn hi hsp₂ =>
    obtain rfl : n = m := by
      injection hpc with hpc
      omega
    exact .inl (.next_of_shift hn (Instr.shift_of_isCall hi) (hsp₂.trans hsp))
  | @step n item s₁ cfg' hn hi hstep =>
    obtain rfl : n = m := by
      injection hpc with hpc
      omega
    simp only [Image.step, get_of_body hat hn] at hstep
    rcases hd.items item (List.mem_of_getElem? hn) with ⟨i, c, rfl⟩ | ⟨l, c, rfl⟩
    · exact hd.exec hat hnd hn (hi i c rfl) hsp hstep
    · obtain rfl := Option.some.inj hstep
      exact .inl (.next_of_shift hn rfl hsp)

/-- What handles an error is not in the body. -/
theorem BodyStep.not_error (hd : Disciplined body) (hat : img.Holds start body)
    {cfg cfg' : Rv32.Config} (hstep : BodyStep img start body cfg cfg') :
    ∀ l ∈ errorLabels, cfg.pc ≠ img.target l := by
  intro l hl hpc
  have hout : ∀ {n : Nat} {item : Item}, body[n]? = some item → cfg.pc ≠ .at (start + n) := by
    intro n item hn hpc'
    obtain ⟨item', hitem', hdef⟩ := defines_of_target (hpc.symm.trans hpc')
    obtain rfl := Option.some.inj ((get_of_body hat hn).symm.trans hitem')
    exact hd.errors l hl (List.mem_filterMap.2 ⟨item, List.mem_of_getElem? hn, hdef⟩)
  cases hstep with
  | call hn => exact absurd rfl (hout hn)
  | step hn => exact absurd rfl (hout hn)

/-- Along a run in the body `sp` is displaced as the body says, until the run leaves for an error. -/
theorem Asm.Disciplined.run (hd : Disciplined body) (hat : img.Holds start body)
    (hnd : (defined img.code).Nodup) {cfg : Rv32.Config}
    (h : Relation.ReflTransGen (BodyStep img start body) ⟨.at start, s⟩ cfg) :
    Displaced start body s cfg ∨ ∃ l ∈ errorLabels, cfg.pc = img.target l := by
  induction h with
  | refl => exact .inl ⟨0, Nat.zero_le _, rfl, by simp [displacement]⟩
  | tail _ hstep ih =>
    rcases ih with hin | ⟨l, hl, hpc⟩
    · exact hstep.displaced hd hat hnd hin
    · exact absurd hpc (hstep.not_error hd hat l hl)

end

/-! ### Statements and routines -/

/-- Code that may jump anywhere. -/
theorem anywhere : ErrorsLeave fun _ _ => True := fun _ _ _ _ => trivial

/-- What is ahead of a block leaves nothing on the stack. -/
theorem Stmt.Opens.moves {c : Context} {k k' : Nat} {t : Stmt} {block : List Stmt}
    {x : Emit (Label × Label)} (h : t.Opens c k x k' block) :
    Emit.Moves (fun _ _ => True) 0 x 0 := by
  have hexpr := fun e : Expr => e.gen_steady anywhere c 0 (Int.le_refl 0)
  have hplain : ∀ (i : Instr) (text : String), i.isPlain = true →
      Emit.Moves (fun _ _ => True) 0 (instr i text) 0 := fun i text hi => .plain hi (Int.le_refl 0)
  have hjump : ∀ (i : Instr) (text : String) (l : Label), i.jump? = some l →
      Emit.Moves (fun _ _ => True) 0 (instr i text) 0 := fun i text l hi =>
    .jump hi (Int.le_refl 0) trivial
  cases h with
  | only loc test =>
    exact .bind (hexpr test) fun _ => .bind (.fresh _) fun _ => .bind (hjump _ _ _ rfl) fun _ =>
      .pure _
  | yes loc test _ no hno =>
    exact .bind (hexpr test) fun _ => .bind (.fresh _) fun _ => .bind (.fresh _) fun _ =>
      .bind (hjump _ _ _ rfl) fun _ => .pure _
  | no loc test yes _ hno =>
    refine .bind (hexpr test) fun _ => .bind (.fresh _) fun _ => .bind (.fresh _) fun _ => ?_
    refine .bind (hjump _ _ _ rfl) fun _ => .bind (Stmt.genAll_moves anywhere trivial k yes) ?_
    exact fun _ => .bind (hjump _ _ _ rfl) fun _ => .bind (.label _ _) fun _ => .pure _
  | loop loc test =>
    refine .bind (.fresh _) fun _ => .bind (.fresh _) fun _ => .bind (.label _ _) fun _ => ?_
    exact .bind (hexpr test) fun _ => .bind (hjump _ _ _ rfl) fun _ => .pure _
  | each loc id iterable _ hslots =>
    refine .bind (.fresh _) fun _ => .bind (.fresh _) fun _ => .bind (hexpr iterable) fun _ => ?_
    refine .bind (hjump _ _ _ rfl) fun _ => .bind (hplain _ _ rfl) fun _ => ?_
    refine .bind (hplain _ _ rfl) fun _ => .bind (.label _ _) fun _ => ?_
    refine .bind (hplain _ _ rfl) fun _ => .bind (hplain _ _ rfl) fun _ => ?_
    refine .bind (hplain _ _ rfl) fun _ => .bind (hjump _ _ _ rfl) fun _ => ?_
    refine .bind (nextElement_steady _ 0 (Int.le_refl 0)) fun _ => .bind (hplain _ _ rfl) fun _ => ?_
    refine .bind (hplain _ _ rfl) fun _ => .bind (hplain _ _ rfl) fun _ => ?_
    refine .bind (box_steady _ _ 0 (Int.le_refl 0)) fun _ => ?_
    exact .bind (storeVariable_steady c _ 0 (Int.le_refl 0)) fun _ => .pure _

/-- The code of a statement has its place in that of the block, with nothing on the stack before
and after it. -/
theorem Stmt.Within.place {c : Context} {k : Nat} {t : Stmt} {ss : List Stmt} {s s' : EmitState}
    {code ahead own : List Item} (h : Stmt.Within c k ss s ahead t own)
    (hall : Stmt.genAll c k ss s = .ok ((), code, s')) :
    (∃ rest, code = ahead ++ own ++ rest) ∧ net ahead = 0 ∧ net own = 0 := by
  induction h generalizing code s' with
  | @head k t ss s s₁ own h =>
    have hown := Stmt.gen_moves anywhere (c := c) trivial k t _ _ _ _ h
    obtain ⟨_, own', _, rest, h', -, rfl⟩ := bind_ok.1 hall
    cases h.symm.trans h'
    exact ⟨⟨rest, rfl⟩, rfl, hown.net_eq_zero⟩
  | @tail k t u ss s s₁ code₁ ahead own h hu ih =>
    have hcode := Stmt.gen_moves anywhere (c := c) trivial k t _ _ _ _ h
    obtain ⟨_, _, _, more, h', hrest, rfl⟩ := bind_ok.1 hall
    cases h.symm.trans h'
    obtain ⟨⟨rest, rfl⟩, hahead, hown⟩ := ih hrest
    refine ⟨⟨rest, by simp⟩, ?_, hown⟩
    rw [net_append, hcode.net_eq_zero, hahead, Int.add_zero]
  | @inner k k' t u ss block x s s₁ labels code₁ ahead own h hx hu ih =>
    have hcode := h.moves _ _ _ _ hx
    obtain ⟨y, hy⟩ := h.gen_eq
    obtain ⟨_, _, _, more, hstmt, -, rfl⟩ := bind_ok.1 hall
    rw [hy] at hstmt
    obtain ⟨_, _, _, _, hx', hstmt, rfl⟩ := bind_ok.1 hstmt
    cases hx.symm.trans hx'
    obtain ⟨_, _, _, tail, hblock, -, rfl⟩ := bind_ok.1 hstmt
    obtain ⟨⟨rest, rfl⟩, hahead, hown⟩ := ih hblock
    refine ⟨⟨rest ++ tail ++ more, by simp⟩, ?_, hown⟩
    rw [net_append, hcode.net_eq_zero, hahead, Int.add_zero]

/-- The code of a statement of the routine, nested ones included, with what is ahead of it in the
body. -/
def Routine.Places (r : Routine) (s : EmitState) (ahead : List Item) (t : Stmt)
    (own : List Item) : Prop :=
  ∃ init s₁ ahead', r.inits s = .ok ((), init, s₁) ∧
    Stmt.Within r.context 0 r.stmts s₁ ahead' t own ∧ ahead = init ++ ahead'

variable {globals : Scope} {layouts : List ClassLayout} {p : Program} {r : Routine}

/-- The body of a function ends with the label for its epilogue; that of the top-level program has
no such label. -/
theorem Program.routine_close (hr : r ∈ p.routines globals layouts) :
    (r.close = [] ∧ r.context.epilogue = []) ∨
      ∃ c c', r.close = [.instr (.move .mv .a0 .zero) c, .label r.context.epilogue c'] ∧
        r.context.epilogue.head? = some '$'.toUInt8 := by
  rcases List.mem_cons.1 hr with rfl | hr
  · exact .inl ⟨rfl, rfl⟩
  · obtain ⟨site, hsite, rfl⟩ := List.mem_map.1 hr
    obtain ⟨outer, env, hn⟩ := (Program.mem_frames_iff globals).1 hsite
    refine .inr ⟨_, _, rfl, ?_⟩
    show (site.frame.label ++ txt "$epilogue").head? = _
    rw [Frame.label_eq hn.path_ne_nil]
    rfl

theorem Program.routine_inits (hr : r ∈ p.routines globals layouts)
    (lev : Label → Int → Prop) : Steady lev r.inits := by
  rcases List.mem_cons.1 hr with rfl | hr
  · exact fun _ _ => .pure ()
  · obtain ⟨site, hsite, rfl⟩ := List.mem_map.1 hr
    exact fun d hd => .bind (.need _ _) fun scope => initLocals_steady _ _ _ d hd

/-- The body of a routine in its parts. -/
theorem Routine.body_ok {s s' : EmitState} {body : List Item}
    (h : r.body s = .ok ((), body, s')) : ∃ init s₁ code, r.inits s = .ok ((), init, s₁) ∧
      Stmt.genAll r.context 0 r.stmts s₁ = .ok ((), code, s') ∧ body = init ++ code ++ r.close := by
  obtain ⟨_, init, s₁, _, hinit, hrest, rfl⟩ := bind_ok.1 h
  obtain ⟨_, code, s₂, _, hcode, hclose, rfl⟩ := bind_ok.1 hrest
  obtain ⟨rfl, rfl⟩ := items_ok.1 hclose
  exact ⟨init, s₁, code, hinit, hcode, by simp⟩

theorem Program.routine_numbers (hr : r ∈ p.routines globals layouts) : Numbers r.inits := by
  rcases List.mem_cons.1 hr with rfl | hr
  · exact .pure ()
  · obtain ⟨site, hsite, rfl⟩ := List.mem_map.1 hr
    exact .bind (.need _ _) fun scope => initLocals_numbers _ _ _

/-- The handlers of errors are not in a body. -/
theorem Routine.errors_notMem (hr : r ∈ p.routines globals layouts) {s s' : EmitState}
    {body : List Item} (h : r.body s = .ok ((), body, s')) : ∀ l ∈ errorLabels, l ∉ defined body := by
  obtain ⟨init, s₁, code, hinit, hcode, rfl⟩ := r.body_ok h
  have hnumbered := (Program.routine_numbers hr _ _ _ _ hinit).append
    (Stmt.genAll_numbers r.context 0 r.stmts _ _ _ _ hcode)
  have hlast : ∀ l ∈ errorLabels, l.getLast?.all Byte.isDigit = false := by decide
  have hhead : ∀ l ∈ errorLabels, l.head? ≠ some '$'.toUInt8 := by decide
  intro l hl hmem
  rw [defined_append, List.mem_append] at hmem
  rcases hmem with hmem | hmem
  · exact hnumbered.notMem (hlast l hl) hmem
  · rcases Program.routine_close hr with ⟨hclose, -⟩ | ⟨c, c', hclose, hepilogue⟩
    · rw [hclose] at hmem
      cases hmem
    · rw [hclose] at hmem
      obtain rfl : l = r.context.epilogue := List.mem_singleton.1 hmem
      exact hhead _ hl hepilogue

/-- The body of a routine moves `sp` back to where it was. -/
theorem Routine.body_moves (hr : r ∈ p.routines globals layouts) {lev : Label → Int → Prop}
    (herr : ErrorsLeave lev) (hret : lev r.context.epilogue 0) : Emit.Moves lev 0 r.body 0 := by
  refine .bind (Program.routine_inits hr lev 0 (Int.le_refl 0)) fun _ =>
    .bind (Stmt.genAll_moves herr hret 0 r.stmts) fun _ s => ?_
  rw [all_items]
  rcases Program.routine_close hr with ⟨hclose, -⟩ | ⟨c, c', hclose, -⟩
  · rw [hclose]
    exact ⟨rfl, fun _ => trivial⟩
  · rw [hclose]
    refine ⟨by simp [Instr.shift], fun _ => ⟨?_, trivial, trivial⟩⟩
    exact Instr.tidy_of_isPlain rfl (Int.le_refl 0)

/-- The label of the epilogue stands at displacement 0. -/
theorem Routine.epilogue_level (hr : r ∈ p.routines globals layouts) {s s' : EmitState}
    {body : List Item} (h : r.body s = .ok ((), body, s')) (hne : r.context.epilogue ≠ []) :
    (r.context.epilogue, 0) ∈ levels 0 body := by
  obtain ⟨init, s₁, code, hinit, hcode, rfl⟩ := r.body_ok h
  have hinit₀ := (Program.routine_inits hr (fun _ _ => True) 0 (Int.le_refl 0) _ _ _ _ hinit).net
  have hcode₀ := (Stmt.genAll_moves anywhere (c := r.context) trivial 0 r.stmts _ _ _ _ hcode).net
  rcases Program.routine_close hr with ⟨-, hepilogue⟩ | ⟨c, c', hclose, -⟩
  · exact absurd hepilogue hne
  · have hnet : 0 + net (init ++ code) = 0 := by
      rw [net_append]
      omega
    rw [levels_append, hnet, hclose]
    exact List.mem_append_right _ (by simp [Instr.shift])

/-- The body of each routine of a listing is disciplined. -/
theorem Routine.disciplined (hr : r ∈ p.routines globals layouts) {s s' : EmitState}
    {before body after : List Item} (h : r.body s = .ok ((), body, s'))
    (hcomplete : Complete (before ++ body ++ after) runtimeLabels) : Disciplined body ∧
      ∀ n c, body[n]? = some (.label r.context.epilogue c) → displacement body n = 0 := by
  let lev : Label → Int → Prop := fun l d =>
    l ∈ errorLabels ∨ (l, d) ∈ levels 0 body ∨ (l = r.context.epilogue ∧ d = 0)
  have hmoves : Asm.Moves lev 0 body 0 :=
    Routine.body_moves hr (fun l hl _ _ => .inl hl) (.inr (.inr ⟨rfl, rfl⟩)) _ _ _ _ h
  have hnd : (defined body).Nodup := by
    have hnodup := hcomplete.nodup
    rw [defined_append, defined_append] at hnodup
    exact hnodup.of_append_left.of_append_right
  -- the listing has no label without a name, so nothing returns from the top-level program
  have hnamed : ∀ l, l ∈ defined body ∨ l ∈ referred body → l ≠ [] := by
    rintro l hl rfl
    have hmem : [] ∈ defined (before ++ body ++ after) ++ referred (before ++ body ++ after) := by
      simp only [defined_append, referred_append, List.mem_append]
      rcases hl with hl | hl
      · exact .inl (.inl (.inr hl))
      · exact .inr (.inl (.inr hl))
    exact absurd (hcomplete.formed _ hmem) (by decide)
  refine ⟨hmoves.disciplined (fun x hx => .inr (.inl hx)) (fun l hl d hd => ?_) hnd
    (Routine.errors_notMem hr h), fun n c hn => ?_⟩
  · rcases hd with hd | hd | ⟨rfl, rfl⟩
    · exact .inl hd
    · exact .inr hd
    · exact .inr (Routine.epilogue_level hr h (hnamed _ (.inr hl)))
  · have hdef : r.context.epilogue ∈ defined body :=
      List.mem_filterMap.2 ⟨_, List.mem_of_getElem? hn, rfl⟩
    obtain ⟨m, i, hm, hi, hd⟩ := mem_levels (Routine.epilogue_level hr h (hnamed _ (.inl hdef)))
    obtain rfl := place_unique hnd hm hi hn rfl
    omega

/-- The bodies of the top-level program and of all functions respect the stack. -/
theorem stack_disciplined {source : Bytes} (h : Accepts source globals p) :
    ∃ layouts items, p.layouts globals = .ok layouts ∧ p.items globals = .ok items ∧
      (∀ r ∈ p.routines globals layouts, ∃ before body after s s',
        items = before ++ r.entry ++ body ++ r.exit ++ after ∧ r.body s = .ok ((), body, s') ∧
        Disciplined body ∧
        (∀ n c, body[n]? = some (.label r.context.epilogue c) → displacement body n = 0) ∧
        (∀ ahead t own, r.Places s ahead t own → ∃ rest, body = ahead ++ own ++ rest ∧
          displacement body ahead.length = 0 ∧ displacement body (ahead ++ own).length = 0) ∧
        ∀ (img : Image) (state : State) (cfg : Rv32.Config), img.code = items →
          Relation.ReflTransGen (BodyStep img (before ++ r.entry).length body)
            ⟨.at (before ++ r.entry).length, state⟩ cfg →
          Displaced (before ++ r.entry).length body state cfg ∨
            ∃ l ∈ errorLabels, cfg.pc = img.target l) ∧
      (∀ t ∈ p.frames, (Routine.ofSite globals layouts t).Restores) ∧
      ∀ (c : Context) (e : Expr) (s s' : EmitState) (code : List Item),
        (e.gen c s = .ok ((), code, s') → net code = 0) ∧
        ∀ target, asType e (e.gen c) target s = .ok ((), code, s') → net code = 0 := by
  have hp := h.accepted
  obtain ⟨layouts, hlayouts, -⟩ := hp.layouts
  obtain ⟨items, hitems, hcomplete⟩ := hp.items_complete
  refine ⟨layouts, items, hlayouts, hitems, fun r hr => ?_,
    fun t _ => Routine.ofSite_restores globals layouts t,
    fun c e s s' code => ⟨fun he => ?_, fun target he => ?_⟩⟩
  · obtain ⟨before, body, after, s, s', hbody, rfl⟩ := hp.items_routine hlayouts hitems hr
    rw [List.append_assoc _ r.exit after] at hcomplete
    obtain ⟨hdisciplined, hepilogue⟩ := Routine.disciplined hr hbody hcomplete
    refine ⟨before, body, after, s, s', rfl, hbody, hdisciplined, hepilogue, ?_, ?_⟩
    · rintro ahead t own ⟨init, s₁, ahead, hinit, hwithin, rfl⟩
      obtain ⟨init', s₂, code, hinit', hcode, rfl⟩ := r.body_ok hbody
      cases hinit.symm.trans hinit'
      obtain ⟨⟨rest, rfl⟩, hahead, hown⟩ := hwithin.place hcode
      have hinit₀ : net init = 0 :=
        (Program.routine_inits hr (fun _ _ => True) 0 (Int.le_refl 0) _ _ _ _ hinit).net_eq_zero
      have hbody : init ++ (ahead ++ own ++ rest) ++ r.close =
          init ++ ahead ++ own ++ (rest ++ r.close) := by simp
      refine ⟨_, hbody, ?_, ?_⟩
      · rw [hbody, List.append_assoc _ own, displacement_append_length, net_append, hinit₀, hahead,
          Int.add_zero]
      · rw [hbody, displacement_append_length, net_append, net_append, hinit₀, hahead, hown,
          Int.add_zero, Int.add_zero]
    · intro img state cfg hcode hrun
      have hat : img.Holds (before ++ r.entry).length body :=
        ⟨before ++ r.entry, r.exit ++ after, by simp [hcode], rfl⟩
      refine hdisciplined.run hat ?_ hrun
      rw [hcode, List.append_assoc _ r.exit after]
      exact hcomplete.nodup
  · exact (e.gen_steady anywhere c 0 (Int.le_refl 0) _ _ _ _ he).net_eq_zero
  · exact (asType_steady (e.gen_steady anywhere c) target 0 (Int.le_refl 0) _ _ _ _ he).net_eq_zero

/-- The body of a function in a function. -/
theorem nesting_disciplined : ∃ globals p, Accepts nesting globals p ∧
    ∃ t ∈ p.frames, t.frame.path = [txt "f", txt "g"] ∧ ∃ layouts items before body after,
      p.items globals = .ok items ∧ items = before ++ (Routine.ofSite globals layouts t).entry ++
        body ++ (Routine.ofSite globals layouts t).exit ++ after ∧ Disciplined body := by
  have hrun : (accepted? nesting).any (fun r => r.2.frames.any fun t =>
      t.frame.path = [txt "f", txt "g"]) = true := by
    decide +kernel
  obtain ⟨⟨globals, p⟩, hr, hframes⟩ := (Option.any_eq_true _ _).1 hrun
  obtain ⟨t, ht, hpath⟩ := List.any_eq_true.1 hframes
  have haccepts := accepts_of_accepted? hr
  obtain ⟨layouts, items, -, hitems, hroutines, -⟩ := stack_disciplined haccepts
  obtain ⟨before, body, after, _, _, hplace, -, hbody, -⟩ := hroutines (.ofSite globals layouts t)
    (List.mem_cons_of_mem _ (List.mem_map.2 ⟨t, ht, rfl⟩))
  exact ⟨globals, p, haccepts, t, ht, of_decide_eq_true hpath, layouts, items, before, body, after,
    hitems, hplace, hbody⟩

end ChocoRv
