import ChocoRv.Yaml.Node.Parse
import ChocoRv.Yaml.Value

/-!
# Decoding nodes

A node is decoded as a value of a type that is asked for, or of any type. What does not fit is
complained about, and the rest is decoded all the same. With the merge key `<<` a mapping takes
over entries of others, as far as it has none with the same key.

References are followed. One that leads into itself is an error, and so are references that make
up almost all of the work.
-/

namespace ChocoRv.Yaml

/-- The complaints so far and the amount of work. -/
structure Decoding where
  complaints : List Bytes := []
  /-- The number of nodes decoded. -/
  visited : Nat := 0
  /-- The number of those inside references. -/
  referred : Nat := 0
  /-- While the keys of a mapping that others are merged into are decoded, the keys so far. A
  mapping in a key does not have them again. -/
  taken? : Option (List Scalar.Value) := none

/-- A value or the error that keeps a document from being decoded at all. -/
abbrev Decode := StateT Decoding (Except Error)

namespace Decode

/-! ## Complaints -/

def complaint (line : Nat) (text : Bytes) : Bytes :=
  txt "line " ++ decimal line ++ txt ": " ++ text

def complain (texts : List Bytes) : Decode Unit :=
  modify fun d => { d with complaints := d.complaints ++ texts }

/-- A text as complaints show it. -/
def excerpt (value : Bytes) : Bytes :=
  if 10 < value.length then value.take 7 ++ txt "..." else value

/-- The complaint about a node that does not fit a type. After the tag of a collection a text, if
there is one, stands as it is. -/
def mismatch (line : Nat) (tag value : Bytes) (type : String) : Bytes :=
  let isCollection := tag == Tag.seq || tag == Tag.map
  let shown := if isCollection then value else txt " `" ++ excerpt value ++ txt "`"
  complaint line (txt "cannot unmarshal " ++ tag ++ shown ++ txt " into " ++ txt type)

/-- The keys that occur again, each occurrence with an earlier one. -/
def repeated : List (Node × Node) → List Bytes
  | [] => []
  | (key, _) :: rest =>
    (rest.filter (key.isSameKey ·.1)).map (fun (again, _) =>
      complaint again.line (txt "mapping key " ++ again.text.printable ++
        txt " already defined at line " ++ decimal key.line)) ++ repeated rest

/-- Complains about a collection where a value of a type should be. -/
def refuse (node : Node) (type : String) : Decode Unit :=
  match node with
  | .map line tag entries =>
    complain (match repeated entries with
      | [] => [mismatch line tag [] type]
      | complaints => complaints)
  | .seq line tag _ => complain [mismatch line tag [] type]
  | _ => return ()

/-! ## References -/

/-- Whether too much of the work is inside references: 99 percent may be at first, and gradually
less where there is more work, down to 10 percent. -/
def isExcessive (visited referred : Nat) : Bool :=
  let low := 400000
  let high := 4000000
  100 < referred && 1000 < visited &&
    if visited ≤ low then 99 * visited < 100 * referred
    else if high ≤ visited then visited < 10 * referred
    else visited * (99 * (high - low) - 89 * (visited - low)) < 100 * (high - low) * referred

/-- Counts a node inside so many references. -/
def visit (depth : Nat) : Decode Unit := do
  let d ← get
  let visited := d.visited + 1
  let referred := if 0 < depth then d.referred + 1 else d.referred
  if isExcessive visited referred then
    throw (.general (txt "document contains excessive aliasing"))
  set { d with visited, referred }

/-- Counts a node and follows it if it is a reference. The references in `path` are being followed;
the result has those for the node it leads to. -/
def enter (doc : Document) (path : List Nat) (node : Node) : Decode (List Nat × Node) := do
  visit path.length
  match node with
  | .reference _ name number _ =>
    if path.contains number then
      throw (.general (txt "anchor '" ++ name ++ txt "' value contains itself"))
    visit (path.length + 1)
    return (number :: path, doc.follow node)
  | _ => return (path, node)

/-! ## Scalars -/

/-- The text of a scalar as it is written, where nothing else is said; none for null. -/
def text? (doc : Document) (path : List Nat) (node : Node) : Decode (Option Bytes) := do
  match (← enter doc path node).2 with
  | .scalar _ tag value =>
    match ← Scalar.value tag value with
    | .null => return none
    | .text s => return some s
    | _ => return some value
  | node =>
    refuse node "string"
    return none

def yes : List Bytes :=
  [txt "y", txt "Y", txt "yes", txt "Yes", txt "YES", txt "on", txt "On", txt "ON"]

def no : List Bytes :=
  [txt "n", txt "N", txt "no", txt "No", txt "NO", txt "off", txt "Off", txt "OFF"]

/-- A truth value; the words of the older standard count in any style. None for null. -/
def flag? (doc : Document) (path : List Nat) (node : Node) : Decode (Option Bool) := do
  match (← enter doc path node).2 with
  | .scalar line tag value =>
    match ← Scalar.value tag value with
    | .null => return none
    | .bool b => return some b
    | v =>
      if yes.any (v == .text ·) then return some true
      if no.any (v == .text ·) then return some false
      complain [mismatch line tag value "bool"]
      return none
  | node =>
    refuse node "bool"
    return none

/-! ## Merging -/

def wantMap : Error := .general (txt "map merge requires map or sequence of maps as the value")

/-- The mappings that a merge key names. -/
def sources (doc : Document) : Node → Except Error (List Node)
  | .seq _ _ items => return items
  | node =>
    match doc.follow node with
    | .map .. => return [node]
    | _ => throw wantMap

/-- The error of a collection where only scalars can be looked up. -/
def unhashable (v : Value) : Error :=
  { abrupt := true, problem := txt "runtime error: hash of unhashable type " ++ v.typeName }

/-- A key that can be looked up. -/
def lookupKey : Value → Except Error Scalar.Value
  | .scalar v => return v
  | v => throw (unhashable v)

/-! ## Values of any type -/

/-- Whether all keys of a mapping are texts. -/
def hasTextKeys (doc : Document) (entries : List (Node × Node)) : Bool :=
  entries.all fun (key, _) =>
    let tag := (doc.follow key).tag
    tag == Tag.str || tag == Tag.merge

/-- The entries of a mapping that is being decoded, and the keys that are taken if it is merged
into another one. -/
structure Filling where
  general : Bool
  entries : List (Scalar.Value × Value) := []
  taken? : Option (List Scalar.Value) := none

/-- Takes a key; none if it is taken already. -/
def Filling.take? (f : Filling) (k : Value) : Except Error (Option Filling) := do
  match f.taken? with
  | none => return some f
  | some taken =>
    let key ← lookupKey k
    return if taken.any key.isSameKey then none else some { f with taken? := some (key :: taken) }

mutual

/-- The value of a node; all the functions below call one another at most `n` deep. -/
def value? (doc : Document) (n : Nat) (path : List Nat) (node : Node) :
    Decode (Option Value) := do
  match n with
  | 0 => return none
  | n + 1 =>
    match ← enter doc path node with
    | (_, .scalar _ tag s) => return some (.scalar (← Scalar.value tag s))
    | (path, .seq _ _ items) => return some (.list (← values doc n path items))
    | (path, .map _ _ entries) =>
      match repeated entries with
      | [] =>
        let general := !hasTextKeys doc entries
        let taken? := (← get).taken?
        modify fun d => { d with taken? := none }
        let filling ← fill doc n path { general, taken? } entries
        modify fun d => { d with taken? := filling.taken? }
        return some (.map general filling.entries)
      | complaints =>
        complain complaints
        return none
    | (_, .reference ..) => return none

/-- The values of items, without those that have none. -/
def values (doc : Document) (n : Nat) (path : List Nat) (items : List Node) :
    Decode (List Value) := do
  match n, items with
  | 0, _ | _, [] => return []
  | n + 1, item :: rest =>
    let v? ← value? doc n path item
    return v?.toList ++ (← values doc n path rest)

/-- Adds the entries of a mapping and of those that it merges. -/
def fill (doc : Document) (n : Nat) (path : List Nat) (f : Filling)
    (entries : List (Node × Node)) : Decode Filling := do
  match n with
  | 0 => return f
  | n + 1 =>
    let f ← addEntries doc n path f entries
    match entries.find? (·.1.isMerge) with
    | none => return f
    | some (_, merge) =>
      let taken ← match f.taken? with
        | some taken => pure taken
        | none => keys doc n path [] entries
      let merged ← addSources doc n path { f with taken? := some taken } (← sources doc merge)
      return { merged with taken? := f.taken?.bind fun _ => merged.taken? }

/-- Adds the entries of a mapping, except those for keys that are taken. -/
def addEntries (doc : Document) (n : Nat) (path : List Nat) (f : Filling)
    (entries : List (Node × Node)) : Decode Filling := do
  match n, entries with
  | 0, _ | _, [] => return f
  | n + 1, (key, value) :: rest =>
    if key.isMerge then return ← addEntries doc n path f rest
    let k? : Option Value ←
      if f.general then value? doc n path key
      else pure ((← text? doc path key).map fun s => .scalar (.text s))
    let some k := k? | addEntries doc n path f rest
    let some f ← f.take? k | addEntries doc n path f rest
    let .scalar k := k | throw (.general (txt "invalid map key: " ++ k.literal))
    match ← value? doc n path value with
    | some v => addEntries doc n path { f with entries := Value.set k v f.entries } rest
    | none => addEntries doc n path f rest

/-- Adds the entries of mappings that a merge key names, the first before the others. -/
def addSources (doc : Document) (n : Nat) (path : List Nat) (f : Filling)
    (nodes : List Node) : Decode Filling := do
  match n, nodes with
  | 0, _ | _, [] => return f
  | n + 1, node :: rest =>
    let .map .. := doc.follow node | throw wantMap
    match ← enter doc path node with
    | (inner, .map _ _ entries) =>
      match repeated entries with
      | [] => addSources doc n path (← fill doc n inner f entries) rest
      | complaints =>
        complain complaints
        addSources doc n path f rest
    | _ => addSources doc n path f rest

/-- The keys of a mapping, after those that are taken. -/
def keys (doc : Document) (n : Nat) (path : List Nat) (taken : List Scalar.Value)
    (entries : List (Node × Node)) : Decode (List Scalar.Value) := do
  match n, entries with
  | 0, _ | _, [] => return taken
  | n + 1, (key, _) :: rest =>
    modify fun d => { d with taken? := some taken }
    let v? ← value? doc n path key
    let taken := (← get).taken?.getD taken
    modify fun d => { d with taken? := none }
    match v? with
    | some v => keys doc n path ((← lookupKey v) :: taken) rest
    | none => keys doc n path taken rest

end

end Decode

end ChocoRv.Yaml
