import ChocoRv.Files
import ChocoRv.Markdown.Blocks
import ChocoRv.Text.Trim

/-!
# Test cases in documents

A heading `Test: name` starts a case. It has one fence with a program and at least one with what is
expected: `errors` lists messages, where an empty fence stands for success, and `asm` lists lines
of assembly in order.
-/

namespace ChocoRv

structure TestCase where
  name : Bytes
  line : Nat
  input : Bytes := []
  errors : List Bytes := []
  /-- Whether there is a fence of errors at all. -/
  hasErrors : Bool := false
  asm : List Bytes := []
deriving DecidableEq, Repr

namespace TestCase

inductive Problem where
  | outside (line : Nat) (language : Bytes)
  | secondInput (line : Nat) (test : Bytes)
  | unknownLanguage (line : Nat) (language test : Bytes)
  | noInput (line : Nat) (test : Bytes)
  | noAssertion (line : Nat) (test : Bytes)
deriving DecidableEq, Repr

def Problem.text : Problem → Bytes
  | outside line language =>
    txt "line " ++ decimal line ++ txt ": " ++ language ++ txt " fence found outside of test case"
  | secondInput line test =>
    txt "line " ++ decimal line ++ txt ": multiple input fences in test '" ++ test ++ txt "'"
  | unknownLanguage line language test =>
    txt "line " ++ decimal line ++ txt ": unknown fence language '" ++ language ++
      txt "' in test '" ++ test ++ txt "'"
  | noInput line test =>
    txt "line " ++ decimal line ++ txt ": test '" ++ test ++ txt "' has no chocopy fence"
  | noAssertion line test =>
    txt "line " ++ decimal line ++ txt ": test '" ++ test ++ txt "' has no assertion fence"

/-- A problem met inside the document or with its last case. -/
inductive Error where
  | walking (p : Problem)
  | final (p : Problem)
deriving DecidableEq, Repr

def Error.message : Error → Bytes
  | walking p => txt "error walking markdown AST: " ++ p.text
  | final p => p.text

/-- The lines of a text without white space around them, those with nothing left dropped. -/
def nonEmptyLines (content : Bytes) : List Bytes :=
  ((content.split '\n'.toUInt8).map Bytes.trim).filter (!·.isEmpty)

def validate (c : TestCase) : Except Problem Unit :=
  if (Bytes.trim c.input).isEmpty then .error (.noInput c.line c.name)
  else if !c.hasErrors && c.asm.isEmpty then .error (.noAssertion c.line c.name)
  else .ok ()

/-- Adds a fence to a case. -/
def addFence (c : TestCase) (line : Nat) (language content : Bytes) : Except Problem TestCase :=
  if language = txt "chocopy" then
    if c.input.isEmpty then .ok { c with input := content }
    else .error (.secondInput line c.name)
  else if language = txt "errors" then
    .ok { c with hasErrors := true, errors := nonEmptyLines content }
  else if language = txt "asm" then .ok { c with asm := c.asm ++ nonEmptyLines content }
  else .error (.unknownLanguage line language c.name)

def headingMark : Bytes := txt "Test: "

/-- The name in the heading of a test. -/
def name? (text : Bytes) : Option Bytes :=
  if headingMark.isPrefixOf text then some (text.drop headingMark.length) else none

/-- The cases of the blocks after the open case. -/
def collect (current? : Option TestCase) : List Markdown.Block → Except Error (List TestCase)
  | [] =>
    match current? with
    | none => .ok []
    | some c => do
      c.validate.mapError .final
      return [c]
  | .heading line text :: rest =>
    match name? text with
    | none => collect current? rest
    | some name =>
      match current? with
      | none => collect (some { name, line }) rest
      | some c => do
        c.validate.mapError .walking
        return c :: (← collect (some { name, line }) rest)
  | .fence line language content :: rest =>
    match current? with
    | none =>
      if language.isEmpty then collect none rest else .error (.walking (.outside line language))
    | some c => do
      let c ← (c.addFence line language content).mapError .walking
      collect (some c) rest

/-- The test cases of a document. -/
def extract (source : Bytes) : Except Error (List TestCase) :=
  collect none (Markdown.blocks source)

/-- Why a file gives no test cases. -/
inductive FileProblem where
  | file (e : FileError)
  | cases (path : Bytes) (e : Error)
deriving DecidableEq, Repr

def FileProblem.message : FileProblem → Bytes
  | file e => e.message
  | cases path e => path ++ txt ": " ++ e.message

def extractFile (files : FileSystem) (path : Bytes) : Except FileProblem (List TestCase) := do
  let source ← (files.read path).mapError .file
  (extract source).mapError (.cases path)

end TestCase

end ChocoRv
