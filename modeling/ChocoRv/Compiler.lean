import ChocoRv.Analysis.Basic
import ChocoRv.Codegen.Program
import ChocoRv.Config.Basic
import ChocoRv.Parser.Program

/-!
# Compilation

`compile` runs the stages that the settings ask for. Semantic errors end it without a failure: they
are part of the result.
-/

namespace ChocoRv

inductive CompileError where
  | source (e : SourceError)
  | typing (e : Typing.Fault)
  | codegen (e : CodegenError)
deriving DecidableEq, Repr

def CompileError.message : CompileError → Bytes
  | source e => e.message
  | typing e => e.message
  | codegen (.fault e) => e.message
  | codegen (.labels e) => txt "code generation: " ++ e.invalid

/-- What the stages that ran have produced. -/
structure Compilation where
  program : Program
  globals? : Option Scope := none
  diagnostics : List Diagnostic := []
  /-- Empty unless code was generated. -/
  asm : Bytes := []

def Compilation.failed (c : Compilation) : Bool := !c.diagnostics.isEmpty

/-- Compilation may fail and keeps a log, a line for each stage. -/
abbrev Compile := ExceptT CompileError (StateM (List Bytes))

namespace Compile

def log (line : Bytes) : Compile Unit := modify (· ++ [line])

end Compile

open Compile

/-- Analyses a program and generates its code. -/
def Program.build (cfg : Config) (p : Program) : Compile Compilation := do
  unless cfg.runs Stage.check.name do return { program := p }
  log (txt "start semantic analysis")
  match p.analyze with
  | .error e => throw (.typing e)
  | .ok a =>
    let result : Compilation :=
      { program := p, globals? := some a.globals, diagnostics := a.diagnostics }
    match a.checked?, a.diagnostics with
    | none, found =>
      log (txt "declaration analysis found " ++ decimal found.length ++ txt " errors")
      return result
    | some _, _ :: found =>
      log (txt "type checker found " ++ decimal (found.length + 1) ++ txt " errors")
      return result
    | some checked, [] =>
      unless cfg.runs Stage.codegen.name do return result
      log (txt "start generate codes")
      match checked.generate a.globals cfg.emitComments with
      | .error e => throw (.codegen e)
      | .ok asm => return { result with asm }

def compile (cfg : Config) (source : Bytes) : Compile Compilation := do
  log (txt "start parser")
  match parse source with
  | .error e => throw (.source e)
  | .ok p => p.build cfg

/-- A line of the log, which ends in a newline also if the text does not. -/
def logLine (text : Bytes) : Bytes :=
  txt "chocopyc: " ++ text ++ if text.getLast? = some '\n'.toUInt8 then [] else txt "\n"

/-- The log as text, which is empty unless the settings are verbose. -/
def Config.logText (cfg : Config) (lines : List Bytes) : Bytes :=
  if cfg.verbose then lines.flatMap logLine else []

/-- The result of a compilation and its log. -/
def Compile.runLogged (cfg : Config) (c : Compile Compilation) :
    Except CompileError Compilation × Bytes :=
  let (result, lines) := c.run.run []
  (result, cfg.logText lines)

end ChocoRv
