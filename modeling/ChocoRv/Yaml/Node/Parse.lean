import ChocoRv.Yaml.Node.Basic
import ChocoRv.Yaml.Token.Next

/-!
# The first document of a text

The tokens of a document are put together to nodes. All after the first document is left unread.

An error may be held back while the tokens of a step are put together; it counts at the end of the
step, unless another one was met in between.
-/

namespace ChocoRv.Yaml

/-- The tokens that are left and what is known of the nodes so far. -/
structure Composition where
  scanner : Scanner
  /-- What the handles of tags stand for. -/
  handles : List (Bytes × Bytes) := []
  /-- The anchors so far with their numbers, the last first. -/
  anchors : List (Bytes × Nat) := []
  /-- The nodes with anchors so far. -/
  anchored : List (Nat × Node) := []
  references : Nat := 0
  /-- The comments above the next node. -/
  above : List Char := []

/-- Adds the comments above a token to those of the next node; the end of a block has none. -/
def Composition.gather (t : Token) : List Comment → Composition → Composition
  | [], c => c
  | comment :: rest, c =>
    if t.place.index < comment.owner || (comment.kind == .head && t.kind == .blockEnd) then c
    else
      let above := if comment.kind != .head then c.above
        else if c.above.isEmpty then comment.text
        else c.above ++ '\n' :: comment.text
      gather t rest { c with above, scanner := { c.scanner with comments := rest } }

abbrev Compose := StateT Composition (Except Error)

namespace Compose

/-- Runs a scanning step; returns its error, if there is one. -/
def attempt {α : Type} (step : Scan α) : Compose (Except Error α) := do
  let c ← get
  let (result, scanner) := step.run.run c.scanner
  set { c with scanner }
  return result

def scan {α : Type} (step : Scan α) : Compose α := do
  match ← attempt step with
  | .ok a => return a
  | .error e => throw e

/-- Gathers the comments above a token. -/
def gather (t : Token) : Compose Unit := modify fun c => c.gather t c.scanner.comments

def peek : Compose Token := do
  let t ← scan Scan.peek
  gather t
  return t

def take : Compose Unit := scan Scan.take

/-- Ends a step: an error that was held back counts now. -/
def settle : Compose Unit := do
  if let some e := (← get).scanner.held? then throw e

/-- Ends a step with a node that has the comments above it for itself. -/
def settleNode : Compose Unit := do
  modify fun c => { c with above := [] }
  settle

/-- Takes the first token and returns the one after it. -/
def advance : Compose Token := do
  take
  peek

/-- Fails at a token in a node that starts at `start`. -/
def fail {α : Type} (start : Place) (t : Token) (problem : String) : Compose α :=
  throw (.inNode start t.place problem)

/-- A scalar that is not written, at a place. -/
def missing (place : Place) : Compose Node := do
  settle
  return .scalar (place.line + 1) Tag.null []

/-- Takes a dash. If there are comments above it, the token after it is looked at once before it is
read, and an error there is held back: the comments are those of a collection that starts there. -/
def takeDash : Compose Unit := do
  let above := (← get).above
  take
  if !above.isEmpty then
    match ← attempt Scan.peek with
    | .error e => modify fun c => { c with scanner := { c.scanner with held? := some e } }
    | .ok t =>
      gather t
      if t.kind == .blockSeqStart || t.kind == .blockMapStart then
        modify fun c => { c with above := c.above.drop (above.length + 1) }

/-! ## Properties -/

structure Properties where
  anchor? : Option Bytes := none
  /-- The handle and the suffix of a tag, with its place. -/
  tag? : Option (Bytes × Bytes × Place) := none

/-- Reads an anchor and a tag, in either order. -/
def properties : Compose Properties := do
  let t ← peek
  match t.kind with
  | .anchor name =>
    let u ← advance
    match u.kind with
    | .tag handle suffix =>
      take
      return ⟨some name, some (handle, suffix, u.place)⟩
    | _ => return ⟨some name, none⟩
  | .tag handle suffix =>
    let u ← advance
    match u.kind with
    | .anchor name =>
      take
      return ⟨some name, some (handle, suffix, t.place)⟩
    | _ => return ⟨none, some (handle, suffix, t.place)⟩
  | _ => return {}

/-- The written tag of a node that starts at `start`. -/
def tagOf (start : Place) (p : Properties) : Compose Bytes := do
  match p.tag? with
  | none => return []
  | some (handle, suffix, place) =>
    if handle.isEmpty then return suffix
    match (← get).handles.lookup handle with
    | some stem => return stem ++ suffix
    | none => throw (.inNode start place "found undefined tag handle")

/-- Gives an anchor a number. It may be referred to from now on. -/
def openAnchor (anchor? : Option Bytes) : Compose (Option Nat) := do
  match anchor? with
  | none => return none
  | some name =>
    let c ← get
    let number := c.anchors.length
    set { c with anchors := (name, number) :: c.anchors }
    return some number

/-- Keeps the node of an anchor. -/
def closeAnchor (number? : Option Nat) (node : Node) : Compose Node := do
  if let some number := number? then
    modify fun c => { c with anchored := (number, node) :: c.anchored }
  return node

def reference (t : Token) (name : Bytes) : Compose Node := do
  take
  settleNode
  let c ← get
  match c.anchors.lookup name with
  | none => throw (.general (txt "unknown anchor '" ++ name ++ txt "' referenced"))
  | some target =>
    set { c with references := c.references + 1 }
    return .reference (t.place.line + 1) name c.references target

/-! ## Nodes -/

/-- Where a node stands: block collections may start only in block context, and only a key or value
of a block mapping may be a sequence that is not indented. -/
inductive Context where
  | flow | block | entry
deriving DecidableEq, Repr

/-- Whether a token of a block mapping follows, where a node is missing. -/
def endsEntry : Token.Kind → Bool
  | .key | .value | .blockEnd => true
  | _ => false

def endsItem : Token.Kind → Bool
  | .blockEntry | .blockEnd => true
  | _ => false

mutual

/-- Reads a node; all the functions below call one another at most `n` deep. -/
def node (n : Nat) (context : Context) : Compose Node := do
  match n with
  | 0 => throw (.general [])
  | n + 1 =>
    let first ← peek
    if let .reference name := first.kind then return ← reference first name
    let start := first.place
    let p ← properties
    let t ← peek
    let written ← tagOf start p
    let line := start.line + 1
    let seq (items : Compose (List Node)) : Compose Node := do
      let anchor? ← openAnchor p.anchor?
      closeAnchor anchor? (.seq line (Node.tagOr written Tag.seq) (← items))
    let map (entries : Compose (List (Node × Node))) : Compose Node := do
      let anchor? ← openAnchor p.anchor?
      closeAnchor anchor? (.map line (Node.tagOr written Tag.map) (← entries))
    let scalar (plain : Bool) (value : Bytes) : Compose Node := do
      let anchor? ← openAnchor p.anchor?
      let tag := Node.tagOr written (Node.scalarTag plain value)
      closeAnchor anchor? (.scalar line tag value)
    match t.kind, context with
    | .blockEntry, .entry =>
      settle
      seq (indentlessItems n)
    | .scalar plain value, _ =>
      take
      settleNode
      scalar plain value
    | .flowSeqStart, _ =>
      settleNode
      seq (take *> flowItems n t.place true)
    | .flowMapStart, _ =>
      settleNode
      map (take *> flowEntries n t.place true)
    | .blockSeqStart, .block | .blockSeqStart, .entry =>
      settle
      seq (take *> blockItems n t.place)
    | .blockMapStart, .block | .blockMapStart, .entry =>
      settle
      map (take *> blockEntries n t.place)
    | _, _ =>
      if p.anchor?.isNone && written.isEmpty then
        fail start t "did not find expected node content"
      settle
      scalar true []

/-- The items of a block sequence that starts at `start`. -/
def blockItems (n : Nat) (start : Place) : Compose (List Node) := do
  match n with
  | 0 => return []
  | n + 1 =>
    let t ← peek
    match t.kind with
    | .blockEntry =>
      takeDash
      let item ← if endsItem (← peek).kind then missing t.place else node n .block
      return item :: (← blockItems n start)
    | .blockEnd =>
      take
      settle
      return []
    | _ => fail start t "did not find expected '-' indicator"

/-- The items of a sequence that is not indented. -/
def indentlessItems (n : Nat) : Compose (List Node) := do
  match n with
  | 0 => return []
  | n + 1 =>
    let t ← peek
    if t.kind ≠ .blockEntry then
      settle
      return []
    takeDash
    let next := (← peek).kind
    let item ← if endsItem next || endsEntry next then missing t.place else node n .block
    return item :: (← indentlessItems n)

/-- The entries of a block mapping that starts at `start`. -/
def blockEntries (n : Nat) (start : Place) : Compose (List (Node × Node)) := do
  match n with
  | 0 => return []
  | n + 1 =>
    let t ← peek
    match t.kind with
    | .key =>
      let key ← if endsEntry (← advance).kind then missing t.place else node n .entry
      let value ← blockValue n
      return (key, value) :: (← blockEntries n start)
    | .blockEnd =>
      take
      settleNode
      return []
    | _ => fail start t "did not find expected key"

/-- The value of a block entry. -/
def blockValue (n : Nat) : Compose Node := do
  match n with
  | 0 => throw (.general [])
  | n + 1 =>
    let t ← peek
    if t.kind ≠ .value then return ← missing t.place
    if endsEntry (← advance).kind then missing t.place else node n .entry

/-- The items of a flow sequence that starts at `start`. An entry of a mapping is an item. -/
def flowItems (n : Nat) (start : Place) (first : Bool) : Compose (List Node) := do
  match n with
  | 0 => return []
  | n + 1 =>
    let t ← peek
    if t.kind = .flowSeqEnd then
      take
      settleNode
      return []
    if !first && t.kind ≠ .flowEntry then fail start t "did not find expected ',' or ']'"
    let t ← if first then pure t else advance
    match t.kind with
    | .flowSeqEnd =>
      take
      settleNode
      return []
    | .key =>
      take
      settle
      let pair ← flowPair n
      return .map (t.place.line + 1) Tag.map [pair] :: (← flowItems n start false)
    | _ =>
      let item ← node n .flow
      return item :: (← flowItems n start false)

/-- An entry of a mapping in a flow sequence. -/
def flowPair (n : Nat) : Compose (Node × Node) := do
  match n with
  | 0 => throw (.general [])
  | n + 1 =>
    let t ← peek
    let key ←
      if [.value, .flowEntry, .flowSeqEnd].contains t.kind then
        take
        missing t.place
      else node n .flow
    let value ← pairValue n
    let _ ← peek
    settle
    return (key, value)

/-- The value of an entry of a mapping in a flow sequence. -/
def pairValue (n : Nat) : Compose Node := do
  match n with
  | 0 => throw (.general [])
  | n + 1 =>
    let t ← peek
    if t.kind ≠ .value then return ← missing t.place
    if [.flowEntry, .flowSeqEnd].contains (← advance).kind then missing t.place else node n .flow

/-- The entries of a flow mapping that starts at `start`. -/
def flowEntries (n : Nat) (start : Place) (first : Bool) : Compose (List (Node × Node)) := do
  match n with
  | 0 => return []
  | n + 1 =>
    let t ← peek
    if t.kind = .flowMapEnd then
      take
      settleNode
      return []
    if !first && t.kind ≠ .flowEntry then fail start t "did not find expected ',' or '\x7d'"
    let t ← if first then pure t else advance
    match t.kind with
    | .flowMapEnd =>
      take
      settleNode
      return []
    | .key =>
      let u ← advance
      let key ←
        if [.value, .flowEntry, .flowMapEnd].contains u.kind then missing u.place
        else node n .flow
      let value ← flowValue n
      return (key, value) :: (← flowEntries n start false)
    | _ =>
      let key ← node n .flow
      let value ← missing (← peek).place
      return (key, value) :: (← flowEntries n start false)

/-- The value of an entry of a flow mapping. -/
def flowValue (n : Nat) : Compose Node := do
  match n with
  | 0 => throw (.general [])
  | n + 1 =>
    let t ← peek
    if t.kind ≠ .value then return ← missing t.place
    let u ← advance
    if [.flowEntry, .flowMapEnd].contains u.kind then missing u.place else node n .flow

end

/-! ## Documents -/

def standardHandles : List (Bytes × Bytes) := [(txt "!", txt "!"), (txt "!!", Tag.stem)]

/-- Reads directives, at most `n`; `versioned` tells whether a version was given. -/
def directives : Nat → Bool → Compose Unit
  | 0, _ => return ()
  | n + 1, versioned => do
    let t ← peek
    match t.kind with
    | .version major minor =>
      if versioned then fail {} t "found duplicate %YAML directive"
      if major ≠ 1 || minor ≠ 1 then fail {} t "found incompatible YAML document"
      take
      directives n true
    | .tagHandle handle stem =>
      let c ← get
      if (c.handles.lookup handle).isSome then fail {} t "found duplicate %TAG directive"
      set { c with handles := c.handles ++ [(handle, stem)] }
      take
      directives n versioned
    | _ => modify fun c => { c with handles := c.handles ++ standardHandles }

/-- The content of a document after its mark. -/
def content (n : Nat) : Compose Node := do
  let t ← peek
  match t.kind with
  | .version .. | .tagHandle .. | .documentStart | .documentEnd | .streamEnd =>
    missing t.place
  | _ => node n .block

/-- What follows the last blank line of a text. -/
def afterBlankLine? : List Char → Option (List Char)
  | [] => none
  | c :: rest =>
    (afterBlankLine? rest).or
      (if c == '\n' && rest.head? == some '\n' then some rest.tail else none)

/-- The comments right above the first node, without those that a blank line sets apart from it. -/
def withoutTitle (above : List Char) : List Char :=
  if above.getLast? == some '\n' then [] else (afterBlankLine? above).getD above

/-- The first document of a text, none if there is nothing in it. -/
def document? (n : Nat) : Compose (Option Document) := do
  scan Scan.start
  settle
  let t ← peek
  let root? : Option Node ← match t.kind with
    | .streamEnd => pure none
    | .version .. | .tagHandle .. | .documentStart => do
      directives n false
      let t ← peek
      if t.kind ≠ .documentStart then fail {} t "did not find expected <document start>"
      take
      settle
      pure (some (← content n))
    | _ => do
      directives n false
      modify fun c => { c with above := withoutTitle c.above }
      settle
      pure (some (← node n .block))
  let _ ← peek
  settle
  let anchored := (← get).anchored
  return root?.map fun root => { root, anchored }

end Compose

/-- Reads the first document of a text. -/
def read (source : Bytes) : Except Error (Option Document) :=
  let text := Text.ofBytes source
  (Compose.document? (16 * (text.chars.length + 1))).run' { scanner := .ofText text }

end ChocoRv.Yaml
