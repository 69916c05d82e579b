import ChocoRv.Ty.Basic

/-!
# Class hierarchies

A hierarchy lists the classes with their superclasses. Walks along superclasses are bounded by the
number of classes, so they end on every hierarchy and miss nothing on a hierarchy without cycles.
-/

namespace ChocoRv

structure Hierarchy where
  classes : List (Name × Option Name)
deriving Repr

namespace Hierarchy

/-- The superclass of a known class; the root has none. -/
def super? (h : Hierarchy) (name : Name) : Option (Option Name) := h.classes.lookup name

def knows (h : Hierarchy) (name : Name) : Bool := (h.super? name).isSome

/-- At most `n` classes from `name` upwards. -/
def ascend (h : Hierarchy) : Nat → Name → List Name
  | 0, _ => []
  | n + 1, name =>
    name :: match h.super? name with
      | some (some super) => h.ascend n super
      | _ => []

/-- The superclass of a class, the superclass of that one and so on up to the root. -/
def ancestors (h : Hierarchy) (name : Name) : List Name :=
  (h.ascend (h.classes.length + 1) name).tail

/-- The class and its ancestors up to the root. The empty name has no lineage. -/
def lineage (h : Hierarchy) (name : Name) : List Name :=
  if name.isEmpty then [] else name :: h.ancestors name

/-- Whether `parent` is `child` or one of its ancestors. A class outside the hierarchy is an
ancestor of itself only. -/
def isAncestor (h : Hierarchy) (parent child : Ty) : Bool :=
  parent == child || (parent == .object && child.isPermissive) ||
    match parent.name?, child.name? with
    | some p, some c => (h.ancestors c).contains p
    | _, _ => false

/-- Whether a value of type `value` may be assigned to a place of type `target`. -/
def isCompatible (h : Hierarchy) (target value : Ty) : Bool :=
  h.isAncestor target value || (!target.isSpecial && value == .noneType) ||
    match target with
    | .list elem =>
      match value with
      | .emptyList => !elem.isList
      | .list v => v == .noneType && h.isCompatible elem .noneType
      | _ => false
    | _ => false

/-- The last element that two lists share before they part, starting from `last`. -/
def lastShared (last : Name) : List Name → List Name → Name
  | a :: as, b :: bs => if a = b then lastShared a as bs else last
  | _, _ => last

/-- The join of two types: for two known classes the deepest class on both lineages, otherwise the
one that accepts the other, and `object` where neither does. -/
def commonAncestor (h : Hierarchy) (a b : Ty) : Ty :=
  let byAssignment := if h.isCompatible a b then a else if h.isCompatible b a then b else .object
  if a = b then a
  else match a.name?, b.name? with
    | some c, some d =>
      if h.knows c && h.knows d then
        .ofName (lastShared (txt "object") (h.lineage c).reverse (h.lineage d).reverse)
      else byAssignment
    | _, _ => byAssignment

/-- A relation between types that holds of no missing type. -/
def onTypes (relation : Ty → Ty → Bool) : Option Ty → Option Ty → Bool
  | some a, some b => relation a b
  | _, _ => false

/-- The join where a missing type is neutral. -/
def join? (h : Hierarchy) : Option Ty → Option Ty → Option Ty
  | none, b => b
  | a, none => a
  | some a, some b => some (h.commonAncestor a b)

end Hierarchy

end ChocoRv
