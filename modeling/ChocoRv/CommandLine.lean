import ChocoRv.Compiler
import ChocoRv.Config.Read

/-!
# The command line

The command as a function of its arguments and of the files that it finds. Flags are written
`-x value`, `-x=value` or with two dashes; the last value of a flag counts and the first argument
that is no flag ends them.
-/

namespace ChocoRv

namespace CommandLine

structure Options where
  path : Bytes := []
  output : Bytes := []
  config : Bytes := []
  stopAfter : Bytes := []
  verbose : Bool := false
  color : Bytes := []
deriving DecidableEq, Repr

/-- The flags that take a text. -/
inductive TextFlag where
  | color | config | output | path | stopAfter
deriving DecidableEq, Repr

namespace TextFlag

def all : List TextFlag := [color, config, output, path, stopAfter]

def name : TextFlag → Bytes
  | color => txt "color"
  | config => txt "config"
  | output => txt "o"
  | path => txt "path"
  | stopAfter => txt "stop_after"

def help : TextFlag → Bytes
  | color => txt "colour diagnostics: auto, always or never"
  | config => txt "the path of a chocopyc.yaml config file"
  | output => txt "the assembly file to write, standard output when empty"
  | path => txt "the path of the chocopy source file"
  | stopAfter => txt "the last stage to run: parse, check or codegen"

def set (value : Bytes) (o : Options) : TextFlag → Options
  | color => { o with color := value }
  | config => { o with config := value }
  | output => { o with output := value }
  | path => { o with path := value }
  | stopAfter => { o with stopAfter := value }

def ofName? (name : Bytes) : Option TextFlag := all.find? (·.name == name)

end TextFlag

/-- The flags with their meaning, by name; that of the truth value comes last. -/
def usage : Bytes :=
  txt "Usage of chocopyc:\n" ++
  (TextFlag.all.flatMap fun f =>
    txt "  -" ++ f.name ++ txt " string\n    \t" ++ f.help ++ txt "\n") ++
  txt "  -v\tlog every compiler stage\n"

/-- Why the flags cannot be read. -/
inductive FlagError where
  | malformed (arg : Bytes)
  | unknown (name : Bytes)
  | help
  | badBool (name value : Bytes)
  | noValue (name : Bytes)
deriving DecidableEq, Repr

/-- The message of an error; a request for help has none. -/
def FlagError.message? : FlagError → Option Bytes
  | malformed arg => some (txt "bad flag syntax: " ++ arg)
  | unknown name => some (txt "flag provided but not defined: -" ++ name)
  | help => none
  | badBool name value =>
    some (txt "invalid boolean value " ++ value.printable ++ txt " for -" ++ name ++
      txt ": parse error")
  | noValue name => some (txt "flag needs an argument: -" ++ name)

def boolOf? (s : Bytes) : Option Bool :=
  if [txt "1", txt "t", txt "T", txt "true", txt "TRUE", txt "True"].contains s then some true
  else if [txt "0", txt "f", txt "F", txt "false", txt "FALSE", txt "False"].contains s then
    some false
  else none

/-- The text of a flag without its dashes; none if the argument is no flag. -/
def flagText? : Bytes → Option Bytes
  | a :: b :: rest =>
    if a ≠ '-'.toUInt8 then none
    else if b = '-'.toUInt8 then some rest
    else some (b :: rest)
  | _ => none

/-- The name of a flag and the value after an equals sign. -/
def splitFlag (text : Bytes) : Bytes × Option Bytes :=
  match text.cut? '='.toUInt8 with
  | some (name, value) => (name, some value)
  | none => (text, none)

/-- Reads flags up to the first argument that is none. -/
def readFlags (o : Options) : List Bytes → Except FlagError Options
  | [] => .ok o
  | arg :: rest =>
    match flagText? arg with
    | none => .ok o
    | some text =>
      if arg = txt "--" then .ok o
      else if text.head?.all fun c => c == '-'.toUInt8 || c == '='.toUInt8 then
        .error (.malformed arg)
      else
        let (name, value?) := splitFlag text
        if name = txt "v" then
          match value? with
          | none => readFlags { o with verbose := true } rest
          | some value =>
            match boolOf? value with
            | some verbose => readFlags { o with verbose } rest
            | none => .error (.badBool name value)
        else match TextFlag.ofName? name with
          | none =>
            if name = txt "help" || name = txt "h" then .error .help else .error (.unknown name)
          | some flag =>
            match value?, rest with
            | some value, rest => readFlags (flag.set value o) rest
            | none, value :: rest => readFlags (flag.set value o) rest
            | none, [] => .error (.noValue name)

/-- What a run of the command leaves behind. -/
structure Outcome where
  exit : Nat
  stdout : Bytes := []
  stderr : Bytes := []
  /-- The file that is written. -/
  written? : Option (Bytes × Bytes) := none
deriving DecidableEq, Repr

/-- Why there are no settings. -/
inductive ConfigProblem where
  | read (e : Config.ReadError)
  | invalid (e : Config.Invalid)
deriving DecidableEq, Repr

def ConfigProblem.message : ConfigProblem → Bytes
  | read e => e.message
  | invalid e => e.message

/-- The settings of the file, if there is one, under those of the flags. -/
def settings (files : FileSystem) (o : Options) : Except ConfigProblem Config := do
  let cfg ← if o.config.isEmpty then .ok {} else (Config.ofFile files o.config).mapError .read
  let prefer (new old : Bytes) : Bytes := if new.isEmpty then old else new
  let cfg : Config :=
    { cfg with
      output := prefer o.output cfg.output
      stopAfter := prefer o.stopAfter cfg.stopAfter
      color := prefer o.color cfg.color
      verbose := o.verbose || cfg.verbose }
  cfg.validate.mapError .invalid
  return cfg

/-- A diagnostic of a file, in red on demand. -/
def diagnosticLine (path : Bytes) (red : Bool) (d : Diagnostic) : Bytes :=
  let line := path ++ txt ":" ++ d.text
  (if red then txt "\x1b[31m" ++ line ++ txt "\x1b[0m" else line) ++ txt "\n"

def reportDiagnostics (cfg : Config) (path : Bytes) (found : List Diagnostic) : Bytes :=
  (Located.sorted found).flatMap (diagnosticLine path (cfg.color == txt "always")) ++
    decimal found.length ++ txt " errors\n"

/-- Delivers the result of a compilation; `log` is what was logged on the way. -/
def deliver (files : FileSystem) (cfg : Config) (path log : Bytes)
    (result : Except CompileError Compilation) : Outcome :=
  match result with
  | .error e => { exit := 1, stderr := log ++ path ++ txt ": " ++ e.message ++ txt "\n" }
  | .ok c =>
    if c.failed then
      { exit := 1, stdout := reportDiagnostics cfg path c.diagnostics, stderr := log }
    else if c.asm.isEmpty then { exit := 0, stderr := log }
    else if cfg.output.isEmpty then { exit := 0, stdout := c.asm, stderr := log }
    else match files.create cfg.output with
      | .ok name? => { exit := 0, stderr := log, written? := name?.map (·, c.asm) }
      | .error e => { exit := 1, stderr := log ++ txt "chocopyc: " ++ e.message ++ txt "\n" }

end CommandLine

/-- The message for a source file that cannot be read. -/
def sourceMissing (path : Bytes) (e : FileError) : Bytes :=
  txt "reading source " ++ path ++ txt ": " ++ e.message

/-- Compiles a file that was read from a path. -/
def compileFile (cfg : Config) (path source : Bytes) : Compile Compilation := do
  Compile.log (txt "compiling " ++ path)
  compile cfg source

namespace CommandLine

/-- Runs the command with its options. -/
def runOptions (files : FileSystem) (o : Options) : Outcome :=
  if o.path.isEmpty then { exit := 2, stderr := txt "chocopyc: -path is required\n" ++ usage }
  else match settings files o with
    | .error e => { exit := 2, stderr := txt "chocopyc: " ++ e.message ++ txt "\n" }
    | .ok cfg =>
      match files.read o.path with
      | .error e =>
        { exit := 1, stderr := o.path ++ txt ": " ++ sourceMissing o.path e ++ txt "\n" }
      | .ok source =>
        let (result, log) := (compileFile cfg o.path source).runLogged cfg
        deliver files cfg o.path log result

def run (files : FileSystem) (args : List Bytes) : Outcome :=
  match readFlags {} args with
  | .ok o => runOptions files o
  | .error e =>
    match e.message? with
    | none => { exit := 0, stderr := usage }
    | some message => { exit := 2, stderr := message ++ txt "\n" ++ usage }

end CommandLine

end ChocoRv
