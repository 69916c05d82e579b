import ChocoRv.Scope

/-!
# Numbered tables

Tables that refer to each other by number, in order of creation. A table falls back on a parent
made before it.
-/

namespace ChocoRv

structure Table (α : Type) where
  parent? : Option Nat
  entries : Bindings α := []
  children : List (Name × Option Nat) := []

abbrev Forest (α : Type) := List (Table α)

namespace Forest

variable {α : Type}

/-- Adds an empty table; its number is the number of tables before. -/
def new (forest : Forest α) (parent? : Option Nat) : Forest α :=
  forest ++ [{ parent? := parent? }]

/-- The tables from number `t` along the parents, at most `n` of them. -/
def ancestry (forest : Forest α) : Nat → Nat → List (Table α)
  | 0, _ => []
  | n + 1, t =>
    match forest[t]? with
    | none => []
    | some table =>
      table :: match table.parent? with
        | none => []
        | some p => forest.ancestry n p

/-- Looks a name up in a table and then along its parents. -/
def get? (forest : Forest α) (t : Nat) (name : Name) : Option α :=
  (forest.ancestry forest.length t).findSome? (·.entries.get? name)

/-- Looks a name up in one table only. -/
def lookup? (forest : Forest α) (t : Nat) (name : Name) : Option α :=
  forest[t]?.bind (·.entries.get? name)

def declares (forest : Forest α) (t : Nat) (name : Name) : Bool :=
  (forest.lookup? t name).isSome

def put (forest : Forest α) (t : Nat) (name : Name) (a : α) : Except Duplicate (Forest α) :=
  match forest[t]? with
  | none => .ok forest
  | some table => do
    let entries ← table.entries.put name a
    return forest.set t { table with entries }

/-- Registers the table that `name` introduces in place of an earlier one. -/
def putScope (forest : Forest α) (t : Nat) (name : Name) (child? : Option Nat) : Forest α :=
  forest.modify t fun table =>
    { table with children := table.children.filter (·.1 != name) ++ [(name, child?)] }

def scope? (forest : Forest α) (t : Nat) (name : Name) : Option Nat :=
  forest[t]?.bind fun table => (table.children.lookup name).bind id

def parent? (forest : Forest α) (t : Nat) : Option Nat := forest[t]?.bind (·.parent?)

end Forest

end ChocoRv
