import ChocoRv.Scope

/-!
# Files

What a program sees of a file system: the files that it can read and those that it can create.
`Files` is such a system in memory: the files below a working directory, by the names on the way to
them. A directory exists if there is a file in it. Outside the working directory there are only the
directories above it.
-/

namespace ChocoRv

/-- Why a path does not lead to a file. -/
inductive FileFault where
  | missing | notDirectory | isDirectory | nameTooLong | invalid
deriving DecidableEq, Repr

def FileFault.text : FileFault → Bytes
  | missing => txt "no such file or directory"
  | notDirectory => txt "not a directory"
  | isDirectory => txt "is a directory"
  | nameTooLong => txt "file name too long"
  | invalid => txt "invalid argument"

/-- A file that cannot be opened or, once open, cannot be read. -/
inductive FileError where
  | opening (path : Bytes) (fault : FileFault)
  | reading (path : Bytes) (fault : FileFault)
deriving DecidableEq, Repr

def FileError.message : FileError → Bytes
  | opening path fault => txt "open " ++ path ++ txt ": " ++ fault.text
  | reading path fault => txt "read " ++ path ++ txt ": " ++ fault.text

structure FileSystem where
  read : Bytes → Except FileError Bytes
  /-- The name under which a new file is kept, if it can be created; none if it is not kept. -/
  create : Bytes → Except FileError (Option Name)

abbrev Files := Bindings Bytes

/-- A directory: the one that some names lead to from the working directory, or one outside. -/
inductive Directory where
  | inside (names : List Name)
  | outside
deriving DecidableEq, Repr

def Directory.parent : Directory → Directory
  | inside [] => outside
  | inside names => inside names.dropLast
  | outside => outside

namespace Files

/-- What a path leads to. -/
inductive Target where
  | file (content : Bytes)
  | directory (d : Directory)
deriving DecidableEq, Repr

def maxName : Nat := 255

def maxPath : Nat := 4095

/-- The names between the slashes of a path, without empty ones. -/
def names (path : Bytes) : List Name := (path.split '/'.toUInt8).filter (!·.isEmpty)

def content? (files : Files) (ns : List Name) : Option Bytes :=
  (files.find? fun (name, _) => names name == ns).map (·.2)

def hasDirectory (files : Files) (ns : List Name) : Bool :=
  files.any fun (name, _) => ns.isPrefixOf (names name).dropLast

/-- Where a name in a directory leads. -/
def step (files : Files) (d : Directory) (name : Name) : Except FileFault Target :=
  if name.isEmpty || name = txt "." then .ok (.directory d)
  else if name = txt ".." then .ok (.directory d.parent)
  else if maxName < name.length then .error .nameTooLong
  else match d with
    | .outside => .error .missing
    | .inside above =>
      match files.content? (above ++ [name]) with
      | some content => .ok (.file content)
      | none =>
        if files.hasDirectory (above ++ [name]) then .ok (.directory (.inside (above ++ [name])))
        else .error .missing

/-- Where names lead from a directory; a file leads no further, not even to itself. -/
def walk (files : Files) : Directory → List Name → Except FileFault Target
  | d, [] => .ok (.directory d)
  | d, name :: rest => do
    match ← files.step d name with
    | .directory d => files.walk d rest
    | .file content => if rest.isEmpty then .ok (.file content) else .error .notDirectory

/-- Where a path starts, if it can be a path at all. -/
def start (path : Bytes) : Except FileFault Directory :=
  if path.contains 0 then .error .invalid
  else if path.isEmpty then .error .missing
  else if maxPath < path.length then .error .nameTooLong
  else .ok (if path.head? = some '/'.toUInt8 then .outside else .inside [])

def read (files : Files) (path : Bytes) : Except FileError Bytes :=
  match start path >>= fun d => files.walk d (path.split '/'.toUInt8) with
  | .error fault => .error (.opening path fault)
  | .ok (.directory _) => .error (.reading path .isDirectory)
  | .ok (.file content) => .ok content

/-- The place of a new file: its directory and name. The last name on the path is not that of a
directory. -/
def place (files : Files) (path : Bytes) : Except FileFault (Directory × Name) := do
  let d ← start path
  match (names path).getLast? with
  | none => throw .isDirectory
  | some last =>
    match ← files.walk d (names path).dropLast with
    | .file _ => throw .notDirectory
    | .directory d =>
      if last = txt "." || last = txt ".." || path.getLast? = some '/'.toUInt8 then
        throw .isDirectory
      match files.step d last with
      | .ok (.directory _) => throw .isDirectory
      | .ok (.file _) | .error .missing => return (d, last)
      | .error fault => throw fault

/-- Creates a file or empties the one that is there; files outside are not kept. -/
def create (files : Files) (path : Bytes) : Except FileError (Option Name) :=
  match files.place path with
  | .error fault => .error (.opening path fault)
  | .ok (.outside, _) => .ok none
  | .ok (.inside above, name) => .ok (some (Bytes.join (txt "/") (above ++ [name])))

def system (files : Files) : FileSystem := ⟨files.read, files.create⟩

end Files

end ChocoRv
