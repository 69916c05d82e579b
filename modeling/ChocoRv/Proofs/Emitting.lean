import ChocoRv.Codegen.Program

/-!
# Rules for emitting code

`Emit.All x s Q` says that whatever `x` emits from the state `s` satisfies `Q`, and `Emit.Ok x s Q`
that `x` does emit something that satisfies it. Both pass through the steps of a computation, so
the code of a construct is taken apart by rewriting with the rules below.
-/

namespace ChocoRv

open Asm

namespace Emit

variable {α β : Type}

abbrev Post (α : Type) := α → List Item → EmitState → Prop

/-- Every result of the computation satisfies `Q`. -/
def All (x : Emit α) (s : EmitState) (Q : Post α) : Prop :=
  ∀ a code s', x s = .ok (a, code, s') → Q a code s'

/-- The computation has a result and it satisfies `Q`. -/
def Ok (x : Emit α) (s : EmitState) (Q : Post α) : Prop :=
  ∃ a code s', x s = .ok (a, code, s') ∧ Q a code s'

variable {x : Emit α} {f : α → Emit β} {s : EmitState} {Q Q' : Post α} {R : Post β}

theorem Ok.mono (h : Ok x s Q) (hQ : ∀ a code s', Q a code s' → Q' a code s') : Ok x s Q' := by
  obtain ⟨a, code, s', hx, hq⟩ := h
  exact ⟨a, code, s', hx, hQ a code s' hq⟩

/-- What holds of every result holds of the one there is. -/
theorem Ok.and_all (h : Ok x s Q) (h' : All x s Q') :
    Ok x s fun a code s' => Q a code s' ∧ Q' a code s' := by
  obtain ⟨a, code, s', hx, hq⟩ := h
  exact ⟨a, code, s', hx, hq, h' a code s' hx⟩

theorem bind_apply (x : Emit α) (f : α → Emit β) (s : EmitState) :
    (x >>= f) s = match x s with
      | .error e => .error e
      | .ok (a, code, s) =>
        match f a s with
        | .error e => .error e
        | .ok (b, more, s) => .ok (b, code ++ more, s) := rfl

theorem all_bind : All (x >>= f) s R ↔
    All x s fun a code s₁ => All (f a) s₁ fun b more s₂ => R b (code ++ more) s₂ := by
  constructor
  · intro h a code s₁ hx b more s₂ hf
    refine h b (code ++ more) s₂ ?_
    rw [bind_apply, hx]
    simp only [hf]
  · intro h b out s₂ hb
    rw [bind_apply] at hb
    split at hb
    · cases hb
    · rename_i a code s₁ hx
      split at hb
      · cases hb
      · rename_i b' more s₂' hf
        cases hb
        exact h a code s₁ hx _ more _ hf

theorem ok_bind : Ok (x >>= f) s R ↔
    Ok x s fun a code s₁ => Ok (f a) s₁ fun b more s₂ => R b (code ++ more) s₂ := by
  constructor
  · rintro ⟨b, out, s₂, hb, hR⟩
    rw [bind_apply] at hb
    split at hb
    · cases hb
    · rename_i a code s₁ hx
      split at hb
      · cases hb
      · rename_i b' more s₂' hf
        cases hb
        exact ⟨a, code, s₁, hx, _, more, _, hf, hR⟩
  · rintro ⟨a, code, s₁, hx, b, more, s₂, hf, hR⟩
    refine ⟨b, code ++ more, s₂, ?_, hR⟩
    rw [bind_apply, hx]
    simp only [hf]

theorem all_pure (a : α) : All (pure a) s Q ↔ Q a [] s :=
  ⟨fun h => h a [] s rfl, by rintro h _ _ _ ⟨⟩; exact h⟩

theorem ok_pure (a : α) : Ok (pure a) s Q ↔ Q a [] s :=
  ⟨by rintro ⟨_, _, _, ⟨⟩, h⟩; exact h, fun h => ⟨a, [], s, rfl, h⟩⟩

theorem all_items (code : List Item) {Q : Post Unit} : All (items code) s Q ↔ Q () code s :=
  ⟨fun h => h () code s rfl, by rintro h _ _ _ ⟨⟩; exact h⟩

theorem ok_items (code : List Item) {Q : Post Unit} : Ok (items code) s Q ↔ Q () code s :=
  ⟨by rintro ⟨_, _, _, ⟨⟩, h⟩; exact h, fun h => ⟨(), code, s, rfl, h⟩⟩

theorem all_fresh (stem : String) {Q : Post Label} : All (fresh stem) s Q ↔
    Q (freshLabel (txt stem) (s.fresh + 1)) [] { s with fresh := s.fresh + 1 } :=
  ⟨fun h => h _ [] _ rfl, by rintro h _ _ _ ⟨⟩; exact h⟩

theorem ok_fresh (stem : String) {Q : Post Label} : Ok (fresh stem) s Q ↔
    Q (freshLabel (txt stem) (s.fresh + 1)) [] { s with fresh := s.fresh + 1 } :=
  ⟨by rintro ⟨_, _, _, ⟨⟩, h⟩; exact h, fun h => ⟨_, [], _, rfl, h⟩⟩

theorem all_fail (e : CodegenFault) : All (fail e) s Q := by
  rintro _ _ _ ⟨⟩

theorem all_need (a? : Option α) (e : CodegenFault) :
    All (need a? e) s Q ↔ ∀ a, a? = some a → Q a [] s := by
  cases a? with
  | none => exact ⟨by simp, fun _ => all_fail e⟩
  | some a =>
    refine (all_pure a).trans ⟨fun h => ?_, fun h => h a rfl⟩
    rintro _ ⟨⟩
    exact h

theorem ok_need (a? : Option α) (e : CodegenFault) :
    Ok (need a? e) s Q ↔ ∃ a, a? = some a ∧ Q a [] s := by
  cases a? with
  | none => exact ⟨by rintro ⟨_, _, _, ⟨⟩, _⟩, by simp⟩
  | some a => exact (ok_pure a).trans (by simp)

theorem all_ofExcept (r : Except CodegenFault α) :
    All (ofExcept r) s Q ↔ ∀ a, r = .ok a → Q a [] s := by
  cases r with
  | error e => exact ⟨by simp, fun _ => by rintro _ _ _ ⟨⟩⟩
  | ok a =>
    refine (all_pure a).trans ⟨fun h => ?_, fun h => h a rfl⟩
    rintro _ ⟨⟩
    exact h

theorem ok_ofExcept (r : Except CodegenFault α) :
    Ok (ofExcept r) s Q ↔ ∃ a, r = .ok a ∧ Q a [] s := by
  cases r with
  | error e => exact ⟨by rintro ⟨_, _, _, ⟨⟩, _⟩, by simp⟩
  | ok a => exact (ok_pure a).trans (by simp)

theorem all_intConstant (n : Int) {Q : Post Label} : All (intConstant n) s Q ↔
    Q (s.pool.int n).1 [] { s with pool := (s.pool.int n).2 } :=
  ⟨fun h => h _ [] _ rfl, by rintro h _ _ _ ⟨⟩; exact h⟩

theorem ok_intConstant (n : Int) {Q : Post Label} : Ok (intConstant n) s Q ↔
    Q (s.pool.int n).1 [] { s with pool := (s.pool.int n).2 } :=
  ⟨by rintro ⟨_, _, _, ⟨⟩, h⟩; exact h, fun h => ⟨_, [], _, rfl, h⟩⟩

theorem all_strConstant (v : Bytes) {Q : Post Label} : All (strConstant v) s Q ↔
    Q (s.pool.str v).1 [] { s with pool := (s.pool.str v).2 } :=
  ⟨fun h => h _ [] _ rfl, by rintro h _ _ _ ⟨⟩; exact h⟩

theorem ok_strConstant (v : Bytes) {Q : Post Label} : Ok (strConstant v) s Q ↔
    Q (s.pool.str v).1 [] { s with pool := (s.pool.str v).2 } :=
  ⟨by rintro ⟨_, _, _, ⟨⟩, h⟩; exact h, fun h => ⟨_, [], _, rfl, h⟩⟩

end Emit

end ChocoRv
