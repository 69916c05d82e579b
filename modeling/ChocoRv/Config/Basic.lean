import ChocoRv.Text.Printable

/-!
# Settings of the compiler
-/

namespace ChocoRv

/-- The stages of a compilation, in order. -/
inductive Stage where
  | parse | check | codegen
deriving DecidableEq, Repr

namespace Stage

def all : List Stage := [parse, check, codegen]

def name : Stage → Bytes
  | parse => txt "parse"
  | check => txt "check"
  | codegen => txt "codegen"

/-- The place of a stage in the order; a name that is no stage counts as the first. -/
def order (name : Bytes) : Nat := ((all.findIdx? (·.name == name)).getD 0)

end Stage

structure Config where
  /-- The file for the assembly text; standard output if empty. -/
  output : Bytes := []
  /-- The name of the last stage to run. -/
  stopAfter : Bytes := Stage.codegen.name
  emitComments : Bool := false
  /-- When diagnostics are coloured: `auto`, `always` or `never`. -/
  color : Bytes := txt "auto"
  verbose : Bool := false
deriving DecidableEq, Repr

namespace Config

/-- A setting with a value that it cannot have. -/
inductive Invalid where
  | stopAfter (value : Bytes)
  | color (value : Bytes)
deriving DecidableEq, Repr

def Invalid.message : Invalid → Bytes
  | stopAfter value =>
    txt "unknown stop_after " ++ value.printable ++ txt ", want parse, check or codegen"
  | color value => txt "unknown color " ++ value.printable ++ txt ", want auto, always or never"

def colors : List Bytes := [txt "auto", txt "always", txt "never"]

def validate (cfg : Config) : Except Invalid Unit :=
  if !(Stage.all.map Stage.name).contains cfg.stopAfter then .error (.stopAfter cfg.stopAfter)
  else if !colors.contains cfg.color then .error (.color cfg.color)
  else .ok ()

/-- Whether a stage runs. -/
def runs (cfg : Config) (stage : Bytes) : Bool := Stage.order stage ≤ Stage.order cfg.stopAfter

end Config

end ChocoRv
