import ChocoRv.Text.Basic

/-!
# Errors in YAML documents

An error names a line where it can. That is the line where the construct at fault starts, unless it
starts on the first line of the document: then it is the line of the problem, and the first line is
not named at all.
-/

namespace ChocoRv.Yaml

/-- A place in a document: the characters, lines and columns before it. -/
structure Place where
  index : Nat := 0
  line : Nat := 0
  column : Nat := 0
deriving DecidableEq, Repr

structure Error where
  /-- The start of the construct at fault. -/
  start : Place := {}
  here : Place := {}
  /-- Whether a token is at fault, so that its own line is named and not the one before. -/
  ofToken : Bool := false
  /-- Whether the reader breaks off, so that the problem stands for itself. -/
  abrupt : Bool := false
  problem : Bytes
deriving DecidableEq, Repr

namespace Error

/-- The line to name. -/
def line? (e : Error) : Option Nat :=
  let before := if e.start.line ≠ 0 then e.start.line else e.here.line
  if before = 0 then none else some (if e.ofToken then before + 1 else before)

def message (e : Error) : Bytes :=
  txt "yaml: " ++ (match e.line? with
    | some n => txt "line " ++ decimal n ++ txt ": "
    | none => []) ++ e.problem

/-- An error of the document as a whole. -/
def general (problem : Bytes) : Error := { problem }

/-- An error in the characters of a document. It has no place of its own, but takes that of an error
that is held back. -/
def ofFault (held? : Option Error) (problem : Bytes) : Error :=
  match held? with
  | some e => { e with ofToken := false, problem }
  | none => { problem }

/-- An error in a token that starts at a place. -/
def inToken (start here : Place) (problem : String) : Error :=
  { start, here, ofToken := true, problem := txt problem }

/-- An error in the order of tokens, which names the line before. -/
def inNode (start here : Place) (problem : String) : Error :=
  { start, here, problem := txt problem }

end Error

end ChocoRv.Yaml
