import ChocoRv.CommandLine

/-!
# The program

Reads the files that the arguments name, runs the command and writes what it leaves.
-/

open ChocoRv

def bytesOf (s : String) : Bytes := s.toUTF8.toList

def stringOf (b : Bytes) : String := (String.fromUTF8? ⟨b.toArray⟩).getD ""

/-- The file error that stands for a failure of the system. -/
def fileError (path : Bytes) : IO.Error → FileError
  | .inappropriateType .. => .reading path .isDirectory
  | _ => .opening path .missing

/-- The content of a file, with its path. -/
def readNamed (path : Bytes) : IO (Name × Except FileError Bytes) := do
  try
    let content ← IO.FS.readBinFile (stringOf path)
    return (path, .ok content.toList)
  catch e => return (path, .error (fileError path e))

def writeStream (stream : IO.FS.Stream) (b : Bytes) : IO Unit := do
  stream.write ⟨b.toArray⟩
  stream.flush

def main (args : List String) : IO UInt32 := do
  let args := args.map bytesOf
  let named : List Bytes := match CommandLine.readFlags {} args with
    | .ok o => [o.path, o.config]
    | .error _ => []
  let found ← (named.filter fun path => !path.isEmpty).mapM readNamed
  let files : FileSystem :=
    { read := fun path => (found.lookup path).getD (.error (.opening path .missing))
      create := fun path => .ok (some path) }
  let outcome := CommandLine.run files args
  writeStream (← IO.getStdout) outcome.stdout
  writeStream (← IO.getStderr) outcome.stderr
  match outcome.written? with
  | none => return outcome.exit.toUInt32
  | some (path, content) =>
    try
      IO.FS.writeBinFile (stringOf path) ⟨content.toArray⟩
      return outcome.exit.toUInt32
    catch e =>
      writeStream (← IO.getStderr) (txt "chocopyc: " ++ (fileError path e).message ++ txt "\n")
      return 1
