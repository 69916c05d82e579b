import ChocoRv.Asm.Check
import ChocoRv.Asm.Pool

/-!
# Listings

An assembly text in the making: its items, the number of labels handed out, and the labels that are
defined elsewhere.
-/

namespace ChocoRv.Asm

/-- A local label: a stem and a number. -/
def freshLabel (stem : Bytes) (number : Nat) : Label := stem ++ txt "_" ++ decimal number

structure Listing where
  comments : Bool
  items : List Item := []
  fresh : Nat := 0
  external : List Label := []

namespace Listing

def emit (l : Listing) (items : List Item) : Listing := { l with items := l.items ++ items }

def text (l : Listing) : Bytes := render l.comments l.items

/-- A label that was not handed out before for the same stem. -/
def newLabel (l : Listing) (stem : Bytes) : Label × Listing :=
  (freshLabel stem (l.fresh + 1), { l with fresh := l.fresh + 1 })

def declareExternal (l : Listing) (labels : List Label) : Listing :=
  { l with external := l.external ++ labels }

/-- The text, if its labels are consistent. -/
def finish (l : Listing) : Except Check.Error Bytes := do
  check l.text l.external
  return l.text

end Listing

/-- The message of a text that cannot be finished. -/
def Check.Error.invalid (e : Check.Error) : Bytes := txt "invalid assembly: " ++ e.message

end ChocoRv.Asm
