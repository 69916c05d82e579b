import ChocoRv.Config.Basic
import ChocoRv.Files
import ChocoRv.Yaml.Decode

/-!
# Reading settings

Settings are the entries of a mapping. A value that does not fit its setting is complained about,
and the other entries are read all the same. With the merge key `<<` a mapping takes over entries
of others, as far as it has none with the same key.
-/

namespace ChocoRv.Config

inductive ReadError where
  | file (path : Bytes) (e : FileError)
  | document (path : Bytes) (e : Yaml.Error)
  /-- Values that do not fit their settings, a line each. -/
  | values (path : Bytes) (complaints : List Bytes)
  | invalid (path : Bytes) (e : Invalid)
  /-- Reading breaks off. -/
  | abrupt (problem : Bytes)
deriving DecidableEq, Repr

def ReadError.message : ReadError → Bytes
  | file path e => txt "reading config " ++ path ++ txt ": " ++ e.message
  | document path e => txt "parsing " ++ path ++ txt ": " ++ e.message
  | values path complaints =>
    txt "parsing " ++ path ++ txt ": yaml: unmarshal errors:" ++
      complaints.flatMap fun c => txt "\n  " ++ c
  | invalid path e => path ++ txt ": " ++ e.message
  | abrupt problem => problem

def ReadError.ofDocument (path : Bytes) (e : Yaml.Error) : ReadError :=
  if e.abrupt then abrupt e.problem else document path e

/-! ## Settings -/

/-- The settings that are read so far. -/
abbrev Read := StateT Config Yaml.Decode

/-- A setting of a type, which a value changes. -/
inductive Setting where
  | text (change : Config → Bytes → Config)
  | flag (change : Config → Bool → Config)

def settings : List (Bytes × Setting) :=
  [(txt "output", .text fun c v => { c with output := v }),
   (txt "stop_after", .text fun c v => { c with stopAfter := v }),
   (txt "emit_comments", .flag fun c v => { c with emitComments := v }),
   (txt "color", .text fun c v => { c with color := v }),
   (txt "verbose", .flag fun c v => { c with verbose := v })]

/-- Takes a value over; null leaves the setting as it is. -/
def Setting.read (doc : Yaml.Document) (path : List Nat) (node : Yaml.Node) : Setting → Read Unit
  | text change => do
    if let some v ← Yaml.Decode.text? doc path node then modify fun c => change c v
  | flag change => do
    if let some v ← Yaml.Decode.flag? doc path node then modify fun c => change c v

/-- Takes the entries of a mapping over, except those for keys that are taken if it is merged into
another one, and returns the keys that are taken after it. Keys that are no setting are passed by;
`done` are the settings that the mapping has set. -/
def readEntries (doc : Yaml.Document) (path : List Nat) :
    Option (List Yaml.Scalar.Value) → List Bytes → List (Yaml.Node × Yaml.Node) →
      Read (Option (List Yaml.Scalar.Value))
  | taken?, _, [] => return taken?
  | taken?, done, (key, value) :: rest => do
    if key.isMerge then return ← readEntries doc path taken? done rest
    let some name ← Yaml.Decode.text? doc path key | readEntries doc path taken? done rest
    if taken?.any (·.contains (.text name)) then return ← readEntries doc path taken? done rest
    let taken? := taken?.map (.text name :: ·)
    match settings.lookup name with
    | none => readEntries doc path taken? done rest
    | some setting =>
      if done.contains name then
        Yaml.Decode.complain [Yaml.Decode.complaint key.line (txt "field " ++ name ++
          txt " already set in type config.Config")]
        readEntries doc path taken? done rest
      else
        setting.read doc path value
        readEntries doc path taken? (name :: done) rest

mutual

/-- Takes a mapping over, at most `n` merges deep. The references in `path` are being followed, and
`taken?` are the keys that are taken, if the mapping is merged into another one. -/
def readMap (doc : Yaml.Document) (n : Nat) (path : List Nat)
    (taken? : Option (List Yaml.Scalar.Value)) (entries : List (Yaml.Node × Yaml.Node)) :
    Read (Option (List Yaml.Scalar.Value)) := do
  match n with
  | 0 => return taken?
  | n + 1 =>
    match Yaml.Decode.repeated entries with
    | [] =>
      let taken? ← readEntries doc path taken? [] entries
      match entries.find? (·.1.isMerge) with
      | none => return taken?
      | some (_, merge) =>
        let taken ← match taken? with
          | some taken => pure taken
          | none => Yaml.Decode.keys doc n path [] entries
        let after ← readSources doc n path taken (← Yaml.Decode.sources doc merge)
        return taken?.map fun _ => after
    | complaints =>
      Yaml.Decode.complain complaints
      return taken?

/-- Takes the mappings that a merge key names over, the first before the others. -/
def readSources (doc : Yaml.Document) (n : Nat) (path : List Nat)
    (taken : List Yaml.Scalar.Value) (nodes : List Yaml.Node) :
    Read (List Yaml.Scalar.Value) := do
  match n, nodes with
  | 0, _ | _, [] => return taken
  | n + 1, node :: rest =>
    let .map .. := doc.follow node | throw Yaml.Decode.wantMap
    match ← Yaml.Decode.enter doc path node with
    | (inner, .map _ _ entries) =>
      let after? ← readMap doc n inner (some taken) entries
      readSources doc n path (after?.getD taken) rest
    | _ => readSources doc n path taken rest

end

/-- Empty settings stand for the default ones. -/
def withDefaults (cfg : Config) : Config :=
  let default : Config := {}
  { cfg with
    stopAfter := if cfg.stopAfter.isEmpty then default.stopAfter else cfg.stopAfter
    color := if cfg.color.isEmpty then default.color else cfg.color }

/-- Takes a document over that should be a mapping; null changes nothing. -/
def readRoot (doc : Yaml.Document) (depth : Nat) : Read Unit := do
  -- the document counts as a node of its own
  Yaml.Decode.visit 0
  match (← Yaml.Decode.enter doc [] doc.root).2 with
  | .map _ _ entries => let _ ← readMap doc depth [] none entries
  | .scalar line tag value =>
    match ← Yaml.Scalar.value tag value with
    | .null => return ()
    | _ => Yaml.Decode.complain [Yaml.Decode.mismatch line tag value "config.Config"]
  | node => Yaml.Decode.refuse node "config.Config"

/-- Reads settings; the path is only named in errors. -/
def ofText (source path : Bytes) : Except ReadError Config := do
  let blank : Config := { stopAfter := [], color := [] }
  let read : Except Yaml.Error (Config × List Bytes) := do
    match ← Yaml.read source with
    | none => return (blank, [])
    | some doc =>
      -- no reference is followed within itself, and each leads into the text at most once
      let depth := (source.length + 1) * (source.length + 1)
      let (((), cfg), d) ← ((readRoot doc depth).run blank).run {}
      return (cfg, d.complaints)
  let (cfg, complaints) ← read.mapError (.ofDocument path)
  if !complaints.isEmpty then throw (.values path complaints)
  let cfg := cfg.withDefaults
  cfg.validate.mapError (.invalid path)
  return cfg

def ofFile (files : FileSystem) (path : Bytes) : Except ReadError Config := do
  ofText (← (files.read path).mapError (.file path)) path

end ChocoRv.Config
