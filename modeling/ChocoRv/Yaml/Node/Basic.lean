import ChocoRv.Yaml.Scalar

/-!
# Nodes of YAML documents

A node is a scalar, a collection or a reference to a node with an anchor. References may go round
in circles, so a document keeps the nodes with anchors in a table.
-/

namespace ChocoRv.Yaml

/-- A node with the line on which it starts. The tag is that of its type if none is written. -/
inductive Node where
  | scalar (line : Nat) (tag value : Bytes)
  | seq (line : Nat) (tag : Bytes) (items : List Node)
  | map (line : Nat) (tag : Bytes) (entries : List (Node × Node))
  /-- A reference with a number of its own to the anchor with a number. -/
  | reference (line : Nat) (name : Bytes) (number target : Nat)

namespace Node

def line : Node → Nat
  | scalar line _ _ | seq line _ _ | map line _ _ | reference line _ _ _ => line

def tag : Node → Bytes
  | scalar _ tag _ | seq _ tag _ | map _ tag _ => tag
  | reference .. => []

/-- Whether two keys are written as the same one: any two collections of a kind are. -/
def isSameKey : Node → Node → Bool
  | scalar _ _ a, scalar _ _ b => a == b
  | seq .., seq .. => true
  | map .., map .. => true
  | reference _ a _ _, reference _ b _ _ => a == b
  | _, _ => false

/-- The text of a key. -/
def text : Node → Bytes
  | scalar _ _ value => value
  | reference _ name _ _ => name
  | seq .. | map .. => []

/-- Whether a key takes over entries of other mappings. -/
def isMerge : Node → Bool
  | scalar _ tag value => tag == Tag.merge && value == txt "<<"
  | _ => false

/-- The tag of a node that is written with a tag or with none. -/
def tagOr (written standard : Bytes) : Bytes :=
  if written.isEmpty || written == txt "!" then standard else Tag.short written

/-- The tag of a scalar without a written one. -/
def scalarTag (plain : Bool) (value : Bytes) : Bytes :=
  if !plain then Tag.str
  else if value == txt "<<" then Tag.merge
  else (Scalar.spelled true value).tag

end Node

structure Document where
  root : Node
  /-- The nodes with anchors, by the numbers of the anchors. -/
  anchored : List (Nat × Node) := []

namespace Document

def node? (d : Document) (anchor : Nat) : Option Node := d.anchored.lookup anchor

/-- The node that a reference stands for, and the node itself of any other. -/
def follow (d : Document) (node : Node) : Node :=
  match node with
  | .reference _ _ _ target => (d.node? target).getD node
  | _ => node

end Document

end ChocoRv.Yaml
