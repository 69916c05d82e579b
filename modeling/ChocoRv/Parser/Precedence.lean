/-!
# Precedence climbing

`climb` turns a term and the operators and terms after it into one tree. Operators of higher
priority bind more tightly; those of equal priority associate to the left.
-/

namespace ChocoRv.Precedence

variable {α ω : Type}

/-- Extends `lhs` by the operators of priority `floor` or more; returns what is left over. -/
def climb (priority : ω → Nat) (node : α → ω → α → α) (floor : Nat) (lhs : α)
    (rest : List (ω × α)) : α × { left : List (ω × α) // left.length ≤ rest.length } :=
  match rest with
  | [] => (lhs, ⟨[], Nat.le_refl _⟩)
  | (op, term) :: rest =>
    if floor ≤ priority op then
      let (rhs, ⟨after, h₁⟩) := climb priority node (priority op + 1) term rest
      let (tree, ⟨left, h₂⟩) := climb priority node floor (node lhs op rhs) after
      (tree, ⟨left, by simp; omega⟩)
    else (lhs, ⟨(op, term) :: rest, Nat.le_refl _⟩)
termination_by rest.length
decreasing_by all_goals grind

/-- The tree of a term and the operators and terms after it. -/
def build (priority : ω → Nat) (node : α → ω → α → α) (first : α) (rest : List (ω × α)) : α :=
  (climb priority node 0 first rest).1

end ChocoRv.Precedence
