import ChocoRv.Parser.Precedence
import Mathlib.Data.List.Basic

/-!
# Grouping by priority

`Grouped p first rest tree` says without an algorithm how operators and terms make up a tree: those
of priority `p` associate to the left, and their operands are groups of higher priority. Climbing
computes the one tree of a chain.
-/

namespace ChocoRv.Precedence

variable {α ω : Type} {priority : ω → Nat} {node : α → ω → α → α}

/-- The result of climbing without the bound on what is left. -/
def climbed (priority : ω → Nat) (node : α → ω → α → α) (floor : Nat) (lhs : α)
    (rest : List (ω × α)) : α × List (ω × α) :=
  ((climb priority node floor lhs rest).1, (climb priority node floor lhs rest).2.1)

theorem climbed_nil (p : Nat) (lhs : α) : climbed priority node p lhs [] = (lhs, []) := by
  rw [climbed, climb]

theorem climbed_of_lt {p : Nat} {op : ω} (h : priority op < p) (lhs term : α)
    (rest : List (ω × α)) :
    climbed priority node p lhs ((op, term) :: rest) = (lhs, (op, term) :: rest) := by
  rw [climbed, climb, if_neg (Nat.not_le.2 h)]

theorem climbed_of_le {p : Nat} {op : ω} (h : p ≤ priority op) (lhs term : α)
    (rest : List (ω × α)) :
    climbed priority node p lhs ((op, term) :: rest) =
      climbed priority node p
        (node lhs op (climbed priority node (priority op + 1) term rest).1)
        (climbed priority node (priority op + 1) term rest).2 := by
  rw [climbed, climb, if_pos h]
  rfl

theorem length_climbed_le (p : Nat) (lhs : α) (rest : List (ω × α)) :
    (climbed priority node p lhs rest).2.length ≤ rest.length :=
  (climb priority node p lhs rest).2.2

/-- No operator of priority `p` or more comes first. -/
def Below (priority : ω → Nat) (p : Nat) (rest : List (ω × α)) : Prop :=
  ∀ x ∈ rest.head?, priority x.1 < p

theorem Below.mono {p q : Nat} {rest : List (ω × α)} (h : Below priority p rest) (hpq : p ≤ q) :
    Below priority q rest :=
  fun x hx => Nat.lt_of_lt_of_le (h x hx) hpq

theorem climbed_of_below {p : Nat} {rest : List (ω × α)} (h : Below priority p rest) (lhs : α) :
    climbed priority node p lhs rest = (lhs, rest) := by
  cases rest with
  | nil => exact climbed_nil p lhs
  | cons x rest => exact climbed_of_lt (h x rfl) lhs x.2 rest

/-- Climbing can first collect what binds more tightly. -/
theorem climbed_climbed (p : Nat) : ∀ (lhs : α) (rest : List (ω × α)),
    climbed priority node p (climbed priority node (p + 1) lhs rest).1
      (climbed priority node (p + 1) lhs rest).2 = climbed priority node p lhs rest
  | lhs, [] => by rw [climbed_nil]
  | lhs, (op, term) :: rest => by
    rcases Nat.lt_or_ge p (priority op) with h | h
    · rw [climbed_of_le h, climbed_of_le (Nat.le_of_lt h)]
      exact climbed_climbed p _ _
    · rw [climbed_of_lt (Nat.lt_succ_of_le h)]
termination_by _ rest => rest.length
decreasing_by exact Nat.lt_succ_of_le (length_climbed_le _ _ _)

/-- `first` and the operators and terms `rest`, all of priority `p` or more, make up a tree. -/
inductive Grouped (priority : ω → Nat) (node : α → ω → α → α) :
    Nat → α → List (ω × α) → α → Prop
  | single (p : Nat) (first : α) : Grouped priority node p first [] first
  | higher {p : Nat} {first tree : α} {rest : List (ω × α)}
      (h : Grouped priority node (p + 1) first rest tree) : Grouped priority node p first rest tree
  | op {first term l r : α} {op : ω} {rest rest' : List (ω × α)}
      (hl : Grouped priority node (priority op) first rest l)
      (hr : Grouped priority node (priority op + 1) term rest' r) :
      Grouped priority node (priority op) first (rest ++ (op, term) :: rest') (node l op r)

namespace Grouped

variable {p : Nat} {first tree : α} {rest : List (ω × α)}

/-- Climbing over a group goes on with its tree. -/
theorem climbed_append (h : Grouped priority node p first rest tree) {tail : List (ω × α)}
    (htail : Below priority (p + 1) tail) :
    climbed priority node p first (rest ++ tail) = climbed priority node p tree tail := by
  induction h generalizing tail with
  | single p first => rfl
  | @higher p first tree rest h ih =>
    rw [← climbed_climbed, ih (htail.mono (Nat.le_succ _)), climbed_of_below htail]
  | @op first term l r op rest rest' hl hr ihl ihr =>
    have hop : Below priority (priority op + 1) ((op, term) :: (rest' ++ tail)) := by
      rintro x ⟨⟩
      exact Nat.lt_succ_self _
    rw [List.append_assoc, List.cons_append, ihl hop, climbed_of_le (Nat.le_refl _),
      ihr (htail.mono (Nat.le_succ _)), climbed_of_below htail]

theorem build_eq (h : Grouped priority node 0 first rest tree) :
    build priority node first rest = tree := by
  have hclimb := h.climbed_append (show Below priority 1 [] by rintro x ⟨⟩)
  rw [List.append_nil, climbed_nil] at hclimb
  exact congrArg Prod.fst hclimb

/-- A group without an operator of priority `p` is a group of higher priority. -/
theorem raise (h : Grouped priority node p first rest tree)
    (hne : ∀ x ∈ rest, priority x.1 ≠ p) : Grouped priority node (p + 1) first rest tree := by
  cases h with
  | single => exact .single _ _
  | higher h => exact h
  | op => exact absurd rfl (hne _ (List.mem_append_right _ List.mem_cons_self))

theorem le_priority (h : Grouped priority node p first rest tree) :
    ∀ x ∈ rest, p ≤ priority x.1 := by
  induction h with
  | single => simp
  | higher _ ih => exact fun x hx => Nat.le_of_succ_le (ih x hx)
  | op _ _ ihl ihr =>
    intro x hx
    rcases List.mem_append.1 hx with hx | hx
    · exact ihl x hx
    · rcases List.mem_cons.1 hx with rfl | hx
      · exact Nat.le_refl _
      · exact Nat.le_of_succ_le (ihr x hx)

end Grouped

section Exists

variable {bound : Nat} (hbound : ∀ op, priority op ≤ bound)

/-- What climbing at `p` does with the first operators and terms. -/
def Climbs (priority : ω → Nat) (node : α → ω → α → α) (p : Nat) (first : α)
    (before : List (ω × α)) (lhs : α) (rest : List (ω × α)) : Prop :=
  ∃ mid, rest = mid ++ (climbed priority node p lhs rest).2 ∧
    Grouped priority node p first (before ++ mid) (climbed priority node p lhs rest).1 ∧
    Below priority p (climbed priority node p lhs rest).2

/-- The loop over the operators of priority `p`, whose right operands are groups of higher
priority. -/
theorem climbs_of_higher {p : Nat}
    (ih : ∀ term rest, Climbs priority node (p + 1) term [] term rest) {first : α} :
    ∀ (rest : List (ω × α)) (before : List (ω × α)) (lhs : α),
      Grouped priority node p first before lhs → Below priority (p + 1) rest →
      Climbs priority node p first before lhs rest
  | [], before, lhs, hlhs, _ => by
    refine ⟨[], ?_⟩
    rw [climbed_nil]
    exact ⟨rfl, by rwa [List.append_nil], by rintro x ⟨⟩⟩
  | (op, term) :: rest, before, lhs, hlhs, hbelow => by
    have hle : priority op ≤ p := Nat.le_of_lt_succ (hbelow (op, term) rfl)
    rcases Nat.lt_or_eq_of_le hle with hlt | rfl
    · refine ⟨[], ?_⟩
      rw [climbed_of_lt hlt]
      refine ⟨rfl, by rwa [List.append_nil], ?_⟩
      rintro x ⟨⟩
      exact hlt
    · obtain ⟨mid, hmid, hright, hafter⟩ := ih term rest
      obtain ⟨mid', hmid', htree, hend⟩ :=
        climbs_of_higher ih (climbed priority node (priority op + 1) term rest).2
          (before ++ (op, term) :: mid) _ (.op hlhs hright) hafter
      refine ⟨((op, term) :: mid) ++ mid', ?_⟩
      rw [climbed_of_le (Nat.le_refl _)]
      refine ⟨?_, ?_, hend⟩
      · rw [List.append_assoc, ← hmid', List.cons_append, ← hmid]
      · rwa [← List.append_assoc]
termination_by rest => rest.length
decreasing_by exact Nat.lt_succ_of_le (length_climbed_le _ _ _)

include hbound in
theorem climbs (p : Nat) (first : α) (rest : List (ω × α)) :
    Climbs priority node p first [] first rest := by
  -- downwards from a priority that no operator has
  induction h : bound + 1 - p generalizing p first rest with
  | zero =>
    have hbelow : Below priority p rest := fun x _ =>
      Nat.lt_of_le_of_lt (hbound x.1) (by omega)
    refine ⟨[], ?_⟩
    rw [climbed_of_below hbelow]
    exact ⟨rfl, .single p first, hbelow⟩
  | succ k ih =>
    have ih : ∀ term rest, Climbs priority node (p + 1) term [] term rest :=
      fun term rest => ih (p + 1) term rest (by omega)
    obtain ⟨mid, hmid, hgroup, hbelow⟩ := ih first rest
    obtain ⟨mid', hmid', htree, hend⟩ := climbs_of_higher ih _ mid _ (.higher hgroup) hbelow
    rw [climbed_climbed] at hmid' htree hend
    refine ⟨mid ++ mid', ?_, htree, hend⟩
    rw [List.append_assoc, ← hmid', ← hmid]

include hbound in
/-- Climbing groups every chain. -/
theorem grouped_build (first : α) (rest : List (ω × α)) :
    Grouped priority node 0 first rest (build priority node first rest) := by
  have hclimbs : Climbs priority node 0 first [] first rest := climbs hbound 0 first rest
  obtain ⟨mid, hmid, hgroup, hbelow⟩ := hclimbs
  have hnil : (climbed priority node 0 first rest).2 = [] := by
    cases hrest : (climbed priority node 0 first rest).2 with
    | nil => rfl
    | cons x xs =>
      rw [hrest] at hbelow
      exact absurd (hbelow x rfl) (Nat.not_lt_zero _)
  rw [hnil, List.append_nil] at hmid
  rwa [← hmid, List.nil_append] at hgroup

end Exists

end ChocoRv.Precedence
