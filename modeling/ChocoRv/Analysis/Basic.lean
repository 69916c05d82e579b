import ChocoRv.Analysis.Typing

/-!
# Semantic analysis

Declarations are resolved first. Types are checked only in a program whose declarations are in
order.
-/

namespace ChocoRv

structure Analysis where
  globals : Scope
  diagnostics : List Diagnostic
  /-- The program with its types, if they were checked. -/
  checked? : Option Program

def Program.analyze (p : Program) : Except Typing.Fault Analysis :=
  let ⟨globals, diagnostics⟩ := p.declare
  if diagnostics.isEmpty then
    let ⟨result, found⟩ := (p.check globals).run
    result.map fun checked => ⟨globals, found, some checked⟩
  else .ok ⟨globals, diagnostics, none⟩

/-- The diagnostics in source order. -/
def Analysis.sorted (a : Analysis) : List Diagnostic := Located.sorted a.diagnostics

end ChocoRv
