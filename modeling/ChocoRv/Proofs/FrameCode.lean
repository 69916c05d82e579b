import ChocoRv.Proofs.Machine
import ChocoRv.Proofs.Routines

/-!
# Entry and exit of a function

The entry saves `ra` and `fp` in the two words below the stack as the caller left it, and `fp` is
where that stack begins; the exit takes `sp` from `fp` and finds both words again. So what is in
between only has to leave `fp` and these words alone for the function to go back to its caller
(`Routine.ofSite_restores`), whatever it does with the rest of the frame.
-/

namespace ChocoRv

open Asm Codegen Rv32

namespace Rv32

/-- The state behind the entry of a function with a frame of `size` bytes. -/
def framed (s : State) (size : Int) : State :=
  (((s.set .sp (s.get .sp + BitVec.ofInt 32 (-size))).setWord (s.get .sp - 4)
    (s.get .ra)).setWord (s.get .sp - 8) (s.get .fp)).set .fp (s.get .sp)

section
variable (s : State) (size : Int)

@[simp] theorem fp_framed : (framed s size).get .fp = s.get .sp :=
  State.get_set_self _ _ _ (by decide)

@[simp] theorem sp_framed : (framed s size).get .sp = s.get .sp + BitVec.ofInt 32 (-size) := by
  rw [framed, sp_set_of_ne _ _ (by decide), State.get_setWord, State.get_setWord,
    State.get_set_self _ _ _ (by decide)]

@[simp] theorem mem_framed : (framed s size).mem =
    (s.mem.setWord (s.get .sp - 4) (s.get .ra)).setWord (s.get .sp - 8) (s.get .fp) := by
  rw [framed, State.mem_set, State.mem_setWord, State.mem_setWord, State.mem_set]

/-- The state before a function goes back to its caller. -/
def restored : State :=
  ((s.set .ra (s.mem.word (s.get .fp - 4))).set .sp (s.get .fp)).set .fp
    (s.mem.word (s.get .fp - 8))

@[simp] theorem fp_restored : (restored s).get .fp = s.mem.word (s.get .fp - 8) :=
  State.get_set_self _ _ _ (by decide)

@[simp] theorem sp_restored : (restored s).get .sp = s.get .fp := by
  rw [restored, sp_set_of_ne _ _ (by decide), State.get_set_self _ _ _ (by decide)]

@[simp] theorem ra_restored : (restored s).get .ra = s.mem.word (s.get .fp - 4) := by
  rw [restored, State.get_set_of_ne _ _ _ _ (by decide), State.get_set_of_ne _ _ _ _ (by decide),
    State.get_set_self _ _ _ (by decide)]

theorem get_restored_of_ne {r : Reg} (hra : r ≠ .ra) (hsp : r ≠ .sp) (hfp : r ≠ .fp) :
    (restored s).get r = s.get r := by
  rw [restored, State.get_set_of_ne _ _ _ _ hfp, State.get_set_of_ne _ _ _ _ hsp,
    State.get_set_of_ne _ _ _ _ hra]

@[simp] theorem mem_restored : (restored s).mem = s.mem := by
  rw [restored, State.mem_set, State.mem_set, State.mem_set]

end

section
variable {s : State} {size : Int}

theorem word_framed_ra (h : Aligned (s.get .sp)) :
    (framed s size).mem.word (s.get .sp - 4) = s.get .ra := by
  have hne : s.get .sp - 4 ≠ s.get .sp - 8 := by bv_omega
  rw [mem_framed, Memory.word_setWord_of_ne _ _ (aligned_sub_eight h) (aligned_sub_four h) hne,
    Memory.word_setWord]

theorem word_framed_fp : (framed s size).mem.word (s.get .sp - 8) = s.get .fp := by
  rw [mem_framed, Memory.word_setWord]

/-- What the caller has on the stack stays there. -/
theorem word_framed_of_le {a : Word} (h : Aligned (s.get .sp)) (hroom : 8 ≤ (s.get .sp).toNat)
    (ha : Aligned a) (hle : (s.get .sp).toNat ≤ a.toNat) :
    (framed s size).mem.word a = s.mem.word a := by
  have hne₄ : a ≠ s.get .sp - 4 := by
    rintro rfl
    bv_omega
  have hne₈ : a ≠ s.get .sp - 8 := by
    rintro rfl
    bv_omega
  rw [mem_framed, Memory.word_setWord_of_ne _ _ (aligned_sub_eight h) ha hne₈,
    Memory.word_setWord_of_ne _ _ (aligned_sub_four h) ha hne₄]

end

end Rv32

/-- An address in the frame, from `sp` as the entry has moved it. -/
theorem framed_address (a : Word) (size z : Int) :
    a + BitVec.ofInt 32 (-size) + BitVec.ofInt 32 (size + z) = a + BitVec.ofInt 32 z := by
  rw [BitVec.add_assoc, ← BitVec.ofInt_add, Int.neg_add_cancel_left]

section
variable {img : Image} {s s' : State} (globals : Scope) (layouts : List ClassLayout)
  (t : FrameSite)

theorem effects_entry (img : Image) (h : Aligned (s.get .sp)) :
    img.effects s ((Routine.ofSite globals layouts t).entry.drop 2) =
      some (framed s t.frame.size) := by
  let size : Int := t.frame.size
  have hset : ∀ w : Word, (s.set .sp w).get .sp = w := fun w =>
    State.get_set_self _ _ _ (by decide)
  have hra : (s.set .sp (s.get .sp + BitVec.ofInt 32 (-size))).get .ra = s.get .ra :=
    State.get_set_of_ne _ _ _ _ (by decide)
  have hfp : (s.set .sp (s.get .sp + BitVec.ofInt 32 (-size))).get .fp = s.get .fp :=
    State.get_set_of_ne _ _ _ _ (by decide)
  have hzero := framed_address (s.get .sp) size 0
  rw [Int.add_zero, add_ofInt_zero] at hzero
  have hfour := framed_address (s.get .sp) size (-4)
  rw [← Int.sub_eq_add_neg, add_ofInt_neg_four] at hfour
  have height := framed_address (s.get .sp) size (-8)
  rw [← Int.sub_eq_add_neg, add_ofInt_neg_eight] at height
  show img.effects s [.instr (.opImm .addi .sp .sp (-size)) _,
    .instr (.store .sw .ra .sp (size - 4)) _, .instr (.store .sw .fp .sp (size - 8)) _,
    .instr (.opImm .addi .fp .sp size) _] = _
  simp only [Image.effects, Image.effect, evalOpImm, Option.bind_some, State.store, hset,
    State.get_setWord, hfour, height, if_pos (aligned_sub_four h), if_pos (aligned_sub_eight h), hra,
    hfp, hzero]
  rfl

/-- The entry needs the stack at a multiple of four. -/
theorem aligned_of_effects_entry
    (h : img.effects s ((Routine.ofSite globals layouts t).entry.drop 2) = some s') :
    Aligned (s.get .sp) := by
  let size : Int := t.frame.size
  have hmove : img.effect s (.opImm .addi .sp .sp (-size)) =
      some (s.set .sp (s.get .sp + BitVec.ofInt 32 (-size))) := rfl
  obtain ⟨s₁, hs₁, hrest⟩ := Option.bind_eq_some_iff.1 h
  cases hmove.symm.trans hs₁
  obtain ⟨s₂, hs₂, -⟩ := Option.bind_eq_some_iff.1 hrest
  have haligned := (Option.ite_none_right_eq_some.1 hs₂).1
  rw [State.get_set_self _ _ _ (by decide), Int.sub_eq_add_neg, framed_address,
    add_ofInt_neg_four] at haligned
  unfold Aligned at haligned ⊢
  bv_omega

theorem effects_restore (img : Image) (h : Aligned (s.get .fp)) (c c' c'' : Bytes) :
    img.effects s [.instr (.load .lw .ra .fp (-4)) c, .instr (.move .mv .sp .fp) c',
      .instr (.load .lw .fp .sp (-8)) c''] = some (restored s) := by
  have hra : img.effect s (.load .lw .ra .fp (-4)) =
      some (s.set .ra (s.mem.word (s.get .fp - 4))) := by
    rw [Image.effect, add_ofInt_neg_four, State.load_aligned (aligned_sub_four h), Option.map_some]
  have hsp : img.effect (s.set .ra (s.mem.word (s.get .fp - 4))) (.move .mv .sp .fp) =
      some ((s.set .ra (s.mem.word (s.get .fp - 4))).set .sp (s.get .fp)) := by
    rw [Image.effect, evalMove, State.get_set_of_ne _ _ _ _ (by decide)]
  have hfp : img.effect ((s.set .ra (s.mem.word (s.get .fp - 4))).set .sp (s.get .fp))
      (.load .lw .fp .sp (-8)) = some (restored s) := by
    rw [Image.effect, State.get_set_self _ _ _ (by decide), add_ofInt_neg_eight,
      State.load_aligned (aligned_sub_eight h), State.mem_set, State.mem_set, Option.map_some,
      restored]
  exact Option.bind_eq_some_iff.2 ⟨_, hra, Option.bind_eq_some_iff.2 ⟨_, hsp,
    Option.bind_eq_some_iff.2 ⟨_, hfp, rfl⟩⟩⟩

/-- Behind its body the routine puts `sp`, `fp` and `ra` back as they were before its entry, if the
body has left `fp` and the two words alone in which the entry has saved the others. -/
def Routine.Restores (r : Routine) : Prop :=
  ∃ restore c, r.exit = restore ++ [.instr (.jr .ra) c] ∧
    ∀ (img : Image) (s s₁ s₂ : State), img.effects s (r.entry.drop 2) = some s₁ →
      s₂.get .fp = s₁.get .fp →
      s₂.mem.word (s₂.get .fp - 4) = s₁.mem.word (s₁.get .fp - 4) →
      s₂.mem.word (s₂.get .fp - 8) = s₁.mem.word (s₁.get .fp - 8) →
      ∃ s₃, img.effects s₂ restore = some s₃ ∧ s₃.get .sp = s.get .sp ∧
        s₃.get .fp = s.get .fp ∧ s₃.get .ra = s.get .ra ∧ s₃.get .a0 = s₂.get .a0 ∧
        s₃.mem = s₂.mem

theorem Routine.ofSite_restores : (Routine.ofSite globals layouts t).Restores := by
  refine ⟨[.instr (.load .lw .ra .fp (-4)) _, .instr (.move .mv .sp .fp) _,
    .instr (.load .lw .fp .sp (-8)) _], _, rfl, fun img s s₁ s₂ hentry hfp hra hlink => ?_⟩
  have haligned := aligned_of_effects_entry globals layouts t hentry
  obtain rfl : framed s t.frame.size = s₁ :=
    Option.some.inj ((effects_entry globals layouts t img haligned).symm.trans hentry)
  rw [fp_framed] at hfp hra hlink
  rw [word_framed_ra haligned] at hra
  rw [word_framed_fp] at hlink
  refine ⟨restored s₂, effects_restore img (hfp ▸ haligned) _ _ _, ?_, ?_, ?_, ?_, mem_restored s₂⟩
  · rw [sp_restored, hfp]
  · rw [fp_restored, hlink]
  · rw [ra_restored, hra]
  · exact get_restored_of_ne s₂ (by decide) (by decide) (by decide)

end

end ChocoRv
