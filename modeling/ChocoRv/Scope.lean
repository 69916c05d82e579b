import ChocoRv.Ty.Hierarchy

/-!
# Scopes

`Bindings` is one table of names, each bound once. A `Scope` is a table with the named scopes
inside it: functions and classes. Names are looked up through a list of tables, innermost first.
-/

namespace ChocoRv

abbrev Bindings (α : Type) := List (Name × α)

/-- The name is already bound in the table. -/
structure Duplicate where
  name : Name
deriving DecidableEq, Repr

def Duplicate.message (d : Duplicate) : Bytes := txt "symtab: duplicate binding: " ++ d.name

namespace Bindings

variable {α : Type}

def get? (table : Bindings α) (name : Name) : Option α := table.lookup name

def declares (table : Bindings α) (name : Name) : Bool := (table.get? name).isSome

/-- Adds a binding; no binding is ever overwritten. -/
def put (table : Bindings α) (name : Name) (a : α) : Except Duplicate (Bindings α) :=
  if table.declares name then .error ⟨name⟩ else .ok (table ++ [(name, a)])

/-- Adds a binding unless the name is bound. -/
def add (table : Bindings α) (name : Name) (a : α) : Bindings α :=
  match table.put name a with
  | .ok table => table
  | .error _ => table

/-- Adds or replaces a binding. -/
def replace (table : Bindings α) (name : Name) (a : α) : Bindings α :=
  table.filter (·.1 != name) ++ [(name, a)]

theorem get?_add_self {table : Bindings α} {name : Name} (a : α)
    (h : table.declares name = false) : (table.add name a).get? name = some a := by
  have hn : table.lookup name = none := by simpa [declares, get?] using h
  simp [add, put, h, get?, List.lookup_append, hn]

theorem get?_add_of_ne (table : Bindings α) {name other : Name} (a : α) (h : other ≠ name) :
    (table.add name a).get? other = table.get? other := by
  have hb : (other == name) = false := by simpa using h
  by_cases hd : table.declares name
  · simp [add, put, hd]
  · simp [add, put, hd, get?, List.lookup_append, List.lookup_cons, hb]

/-- A binding is never overwritten. -/
theorem add_of_declares {table : Bindings α} {name : Name} (a : α)
    (h : table.declares name = true) : table.add name a = table := by
  simp [add, put, h]

def sorted (table : Bindings α) : Bindings α := table.mergeSort fun a b => Bytes.le a.1 b.1

end Bindings

/-- The tables that a place sees, innermost first. -/
abbrev Env := List (Bindings Entry)

def Env.get? (env : Env) (name : Name) : Option Entry := env.findSome? (Bindings.get? · name)

structure Scope where
  entries : Bindings Entry
  children : List (Name × Scope)

namespace Scope

def empty : Scope := ⟨[], []⟩

def get? (s : Scope) (name : Name) : Option Entry := s.entries.get? name

def declares (s : Scope) (name : Name) : Bool := s.entries.declares name

def child? (s : Scope) (name : Name) : Option Scope := s.children.lookup name

/-- The scope reached through the named scopes of a path. -/
def descend? (s : Scope) : List Name → Option Scope
  | [] => some s
  | name :: path => (s.child? name).bind (·.descend? path)

def bind (s : Scope) (name : Name) (entry : Entry) : Scope :=
  { s with entries := s.entries.add name entry }

/-- Registers the scope that `name` introduces in place of an earlier one. -/
def setChild (s : Scope) (name : Name) (child : Scope) : Scope :=
  { s with children := s.children.filter (·.1 != name) ++ [(name, child)] }

/-- The classes that a table binds. -/
def hierarchy (globals : Scope) : Hierarchy :=
  ⟨globals.entries.filterMap fun (name, entry) => entry.class?.map (name, ·.super?)⟩

/-- The member tables of a class and its ancestors. -/
def memberTables (globals : Scope) (cls : Name) : Env :=
  (globals.hierarchy.lineage cls).filterMap fun c => (globals.child? c).map (·.entries)

/-- A member of a class, declared in it or inherited. -/
def member? (globals : Scope) (cls name : Name) : Option Entry :=
  (globals.memberTables cls).get? name

end Scope

end ChocoRv
