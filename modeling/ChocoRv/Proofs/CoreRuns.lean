import ChocoRv.Proofs.CoreWords
import ChocoRv.Proofs.FreshLabels

/-!
# Runs of core code

What a piece of code does to a machine whose memory holds the variables of a store. `Ready` relates
store and machine, `Kept` says what evaluation leaves alone: the stack pointer and all words but
those below it. `Lands` says where a run from the start of the code comes to, for each of the ways
in which the evaluation can end.
-/

namespace ChocoRv.Core

open Asm Rv32 Codegen

/-- One of the `room` words under a stack pointer. -/
def Below (sp : Word) (room : Nat) (a : Word) : Prop :=
  ∃ k < room, a = sp - BitVec.ofNat 32 (4 * (k + 1))

theorem Below.push {sp a : Word} {room : Nat} (h : Below (sp - 4) room a) :
    Below sp (room + 1) a := by
  obtain ⟨k, hk, rfl⟩ := h
  refine ⟨k + 1, by omega, ?_⟩
  bv_omega

theorem below_top {sp : Word} {room : Nat} : Below sp (room + 1) (sp - 4) := ⟨0, by omega, rfl⟩

/-- A pushed word is not among those under it. -/
theorem not_below_self {sp : Word} {room : Nat} (h : 4 * room < 2 ^ 32) : ¬ Below sp room sp := by
  rintro ⟨k, hk, heq⟩
  bv_omega

/-- The type of a variable of the program. -/
abbrev VarType (globals : Scope) (x : Name) (t : Ty) : Prop := globals.entries.value? x = some t

/-- No label is defined twice in the text, `error.Div` is outside, and each variable has a word of
its own. -/
structure Linked (globals : Scope) (img : Image) : Prop where
  unique : (defined img.code).Nodup
  error : img.target errorDiv = .out errorDiv
  aligned : ∀ x t, VarType globals x t → Aligned (img.address (globalLabel x))
  distinct : ∀ x t y t', VarType globals x t → VarType globals y t' →
    img.address (globalLabel x) = img.address (globalLabel y) → x = y

/-- The machine holds the store, and there is room on the stack away from the variables. -/
structure Ready (globals : Scope) (img : Image) (σ : Store) (room : Nat) (s : State) : Prop where
  aligned : Aligned (s.get .sp)
  room_lt : 4 * room < 2 ^ 32
  apart : ∀ x t, VarType globals x t → ¬ Below (s.get .sp) room (img.address (globalLabel x))
  holds : ∀ x t, VarType globals x t → ∃ v, σ x = some v ∧ v.ty = t ∧ v.Fits ∧
    s.mem.word (img.address (globalLabel x)) = v.word

/-- The stack pointer is as before, and so are all words but those under it. -/
structure Kept (room : Nat) (s s' : State) : Prop where
  sp : s'.get .sp = s.get .sp
  words : ∀ a, Aligned a → ¬ Below (s.get .sp) room a → s'.mem.word a = s.mem.word a

namespace Kept

variable {room : Nat} {s s' s'' : State}

theorem of_mem (hsp : s'.get .sp = s.get .sp) (hmem : s'.mem = s.mem) : Kept room s s' :=
  ⟨hsp, fun a _ _ => by rw [hmem]⟩

theorem refl (s : State) : Kept room s s := of_mem rfl rfl

theorem trans (h : Kept room s s') (h' : Kept room s' s'') : Kept room s s'' := by
  refine ⟨h'.sp.trans h.sp, fun a ha hb => ?_⟩
  rw [h'.words a ha (h.sp.symm ▸ hb), h.words a ha hb]

end Kept

variable {globals : Scope} {img : Image} {σ : Store} {room : Nat} {s s' : State}

theorem Ready.kept (h : Ready globals img σ room s) (hlink : Linked globals img)
    (hkept : Kept room s s') : Ready globals img σ room s' := by
  refine ⟨hkept.sp ▸ h.aligned, h.room_lt, hkept.sp.symm ▸ h.apart, fun x t hx => ?_⟩
  obtain ⟨v, hv, hty, hfits, hword⟩ := h.holds x t hx
  refine ⟨v, hv, hty, hfits, ?_⟩
  rw [hkept.words _ (hlink.aligned x t hx) (h.apart x t hx), hword]

/-! ### Pushing and popping -/

theorem Ready.pushed (h : Ready globals img σ (room + 1) s) (hlink : Linked globals img) (r : Reg) :
    Ready globals img σ room (Rv32.pushed s r) := by
  have hne : ∀ x t, VarType globals x t → img.address (globalLabel x) ≠ s.get .sp - 4 :=
    fun x t hx heq => h.apart x t hx (heq ▸ below_top)
  refine ⟨aligned_sp_pushed h.aligned r, by have := h.room_lt; omega, fun x t hx hb => ?_,
    fun x t hx => ?_⟩
  · rw [sp_pushed] at hb
    exact h.apart x t hx hb.push
  · obtain ⟨v, hv, hty, hfits, hword⟩ := h.holds x t hx
    refine ⟨v, hv, hty, hfits, ?_⟩
    rw [← hword]
    simp only [Rv32.pushed, State.mem_setWord, State.mem_set]
    exact Memory.word_setWord_of_ne _ _ (aligned_sub_four h.aligned) (hlink.aligned x t hx)
      (hne x t hx)

/-- After code that keeps what was pushed, the word is still there. -/
theorem Kept.top (h : Kept room (pushed s r) s') (hroom : 4 * room < 2 ^ 32)
    (haligned : Aligned (s.get .sp)) : s'.mem.word (s.get .sp - 4) = s.get r := by
  have hself : ¬ Below ((pushed s r).get .sp) room (s.get .sp - 4) := by
    rw [sp_pushed]
    exact not_below_self hroom
  rw [h.words _ (aligned_sub_four haligned) hself]
  simp [pushed]

theorem Kept.popped (h : Kept room (pushed s r) s') (haligned : Aligned (s.get .sp))
    (hsp : s''.get .sp = s.get .sp) (hmem : s''.mem = s'.mem) : Kept (room + 1) s s'' := by
  refine ⟨hsp, fun a ha hb => ?_⟩
  have hne : a ≠ s.get .sp - 4 := fun heq => hb (heq ▸ below_top)
  have hb' : ¬ Below ((pushed s r).get .sp) room a := by
    rw [sp_pushed]
    exact fun h => hb h.push
  rw [hmem, h.words a ha hb']
  simp only [pushed, State.mem_setWord, State.mem_set]
  exact Memory.word_setWord_of_ne _ _ (aligned_sub_four haligned) ha hne

/-! ### Where a run comes to -/

variable {α β : Type}

/-- From the start of the code the machine comes to its end, with a result that `post` describes,
or to `error.Div`, as the evaluation `r` says. -/
def Lands (img : Image) (n : Nat) (code : List Item) (room : Nat) (s : State)
    (post : α → State → Prop) : Except Stop α → Prop
  | .ok a => ∃ s', img.Reaches 1 ⟨.at n, s⟩ ⟨.at (n + code.length), s'⟩ ∧ Kept room s s' ∧ post a s'
  | .error .divZero => ∃ s', img.Reaches 1 ⟨.at n, s⟩ ⟨.out errorDiv, s'⟩
  | .error .stuck => False

namespace Lands

variable {n : Nat} {code more : List Item} {post post' : α → State → Prop}
  {next : β → State → Prop} {r : Except Stop α} {f : α → Except Stop β}

theorem map (h : Lands img n code room s post r) (g : α → β) (next : β → State → Prop)
    (hpost : ∀ a s', post a s' → next (g a) s') :
    Lands img n code room s next (r >>= fun a => pure (g a)) := by
  match r, h with
  | .ok a, ⟨s', hreach, hkept, ha⟩ => exact ⟨s', hreach, hkept, hpost a s' ha⟩
  | .error .divZero, h => exact h

theorem bind (h : Lands img n code room s post r)
    (hnext : ∀ a s₁, Kept room s s₁ → post a s₁ →
      Lands img (n + code.length) more room s₁ next (f a)) :
    Lands img n (code ++ more) room s next (r >>= f) := by
  match r, h with
  | .ok a, ⟨s₁, hreach, hkept, ha⟩ =>
    have h' := hnext a s₁ hkept ha
    show Lands img n (code ++ more) room s next (f a)
    match f a, h' with
    | .ok b, ⟨s₂, hreach', hkept', hb⟩ =>
      refine ⟨s₂, ?_, hkept.trans hkept', hb⟩
      rw [List.length_append, ← Nat.add_assoc]
      exact (hreach.trans hreach').mono (by omega)
    | .error .divZero, ⟨s₂, hreach'⟩ => exact ⟨s₂, (hreach.trans hreach').mono (by omega)⟩
  | .error .divZero, h => exact h

/-- Some way to the rest of the code. -/
theorem of_reaches {k : Nat} (code more : List Item)
    (hreach : img.Reaches k ⟨.at n, s⟩ ⟨.at (n + code.length), s'⟩) (hkept : Kept room s s')
    (h : Lands img (n + code.length) more room s' post r) :
    Lands img n (code ++ more) room s post r := by
  match r, h with
  | .ok a, ⟨s₁, hreach', hkept', ha⟩ =>
    refine ⟨s₁, ?_, hkept.trans hkept', ha⟩
    rw [List.length_append, ← Nat.add_assoc]
    exact (hreach.trans hreach').mono (by omega)
  | .error .divZero, ⟨s₁, hreach'⟩ => exact ⟨s₁, (hreach.trans hreach').mono (by omega)⟩

/-- One step to the next item that changes nothing. -/
theorem cons {item : Item} (hstep : img.step ⟨.at n, s⟩ = some ⟨.at (n + 1), s⟩)
    (h : Lands img (n + 1) code room s post r) : Lands img n (item :: code) room s post r :=
  .of_reaches [item] code (.of_step hstep) (.refl s) h

/-- A piece of the code with the ways to it and from it to the end. -/
theorem within {j k : Nat} {m : Nat} (hin : img.Reaches j ⟨.at n, s⟩ ⟨.at m, s⟩)
    (h : Lands img m code room s post r)
    (hout : ∀ s', img.Reaches k ⟨.at (m + code.length), s'⟩ ⟨.at (n + more.length), s'⟩) :
    Lands img n more room s post r := by
  match r, h with
  | .ok a, ⟨s', hreach, hkept, ha⟩ =>
    exact ⟨s', ((hin.trans hreach).trans (hout s')).mono (by omega), hkept, ha⟩
  | .error .divZero, ⟨s', hreach⟩ => exact ⟨s', (hin.trans hreach).mono (by omega)⟩

/-- A last piece of code that goes on without a jump. -/
theorem effects {a : α} (hcode : img.Holds n code) (hne : code ≠ [])
    (heffects : img.effects s code = some s') (hkept : Kept room s s') (hpost : post a s') :
    Lands img n code room s post (.ok a) := by
  refine ⟨s', (hcode.reaches heffects).mono ?_, hkept, hpost⟩
  exact List.length_pos_iff.2 hne

/-- Code between pushing a register and popping into another one runs with one word less. -/
theorem between {r₁ r₂ : Reg} {c₁ c₂ c₃ c₄ : Bytes} (hr₁ : r₁ ≠ .sp) (hr₂ : r₂ ≠ .sp)
    (hz : r₂ ≠ .zero)
    (hcode : img.Holds n (.instr (.opImm .addi .sp .sp (-4)) c₁ :: .instr (.store .sw r₁ .sp 0) c₂ ::
      (code ++ [.instr (.load .lw r₂ .sp 0) c₃, .instr (.opImm .addi .sp .sp 4) c₄])))
    (haligned : Aligned (s.get .sp)) (hroom : 4 * room < 2 ^ 32)
    (h : Lands img (n + 2) code room (pushed s r₁) post r)
    (hpost : ∀ a s₁, post a s₁ → (popped s₁ r₂).get r₂ = s.get r₁ → post' a (popped s₁ r₂)) :
    Lands img n (.instr (.opImm .addi .sp .sp (-4)) c₁ :: .instr (.store .sw r₁ .sp 0) c₂ ::
      (code ++ [.instr (.load .lw r₂ .sp 0) c₃, .instr (.opImm .addi .sp .sp 4) c₄]))
      (room + 1) s post' r := by
  have hpush : img.Reaches 2 ⟨.at n, s⟩ ⟨.at (n + 2), pushed s r₁⟩ := by
    have hfirst : img.Holds n [.instr (.opImm .addi .sp .sp (-4)) c₁,
        .instr (.store .sw r₁ .sp 0) c₂] := hcode.left
    exact hfirst.reaches (by rw [effects_push img hr₁ haligned]; rfl)
  match r, h with
  | .ok a, ⟨s₁, hreach, hkept, ha⟩ =>
    have hsp : s₁.get .sp = s.get .sp - 4 := hkept.sp.trans (sp_pushed s r₁)
    have hpop : img.effects s₁ [.instr (.load .lw r₂ .sp 0) c₃,
        .instr (.opImm .addi .sp .sp 4) c₄] = some (popped s₁ r₂) := by
      rw [effects_pop img hr₂ (hsp ▸ aligned_sub_four haligned)]
      rfl
    have hlast := hcode.tail.tail.right.reaches hpop
    have hsp' : (popped s₁ r₂).get .sp = s.get .sp := by
      rw [sp_popped, hsp]
      bv_omega
    have htop : (popped s₁ r₂).get r₂ = s.get r₁ := by
      rw [get_popped_self _ hr₂ hz, hsp, hkept.top hroom haligned]
    refine ⟨popped s₁ r₂, ?_, hkept.popped haligned hsp' (mem_popped _ _), hpost a s₁ ha htop⟩
    have hpos : n + (Item.instr (.opImm .addi .sp .sp (-4)) c₁ :: .instr (.store .sw r₁ .sp 0) c₂ ::
        (code ++ [.instr (.load .lw r₂ .sp 0) c₃, .instr (.opImm .addi .sp .sp 4) c₄])).length =
          n + 2 + code.length + 2 := by
      simp only [List.length_cons, List.length_append, List.length_nil]
      omega
    rw [hpos]
    exact ((hpush.trans hreach).trans hlast).mono (by omega)
  | .error .divZero, ⟨s₁, hreach⟩ => exact ⟨s₁, (hpush.trans hreach).mono (by omega)⟩

end Lands

end ChocoRv.Core
