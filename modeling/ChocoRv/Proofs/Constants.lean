import ChocoRv.Proofs.Faults

/-!
# Constants stay

A label that code takes from the pool at one point is the label of the same constant at the end.
-/

namespace ChocoRv

open Asm

namespace Emit

variable {α : Type}

/-- The computation loses no constant. -/
class Keeps (x : Emit α) : Prop where
  all : ∀ s, All x s fun _ _ s' => s.pool.Within s'.pool

theorem Keeps.within {x : Emit α} [h : Keeps x] {s s' : EmitState} {a : α} {code : List Item}
    (hx : x s = .ok (a, code, s')) : s.pool.Within s'.pool :=
  h.all s a code s' hx

instance {x : Emit α} [h : Confined (fun _ => True) x] : Keeps x := ⟨h.keeps⟩

instance (priority := low) {x : Emit α} [h : Keeps x] : Confined (fun _ => True) x :=
  ⟨h.all, fun _ _ _ => trivial⟩

end Emit

end ChocoRv
