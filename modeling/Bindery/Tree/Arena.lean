import Bindery.Phrase

/-!
An arena holds the nodes of a tree under consecutive numbers. Children are written by number, and
lists of children are windows of one flat list, so that a node has a fixed shape.
-/

namespace Bindery

/-- The number of a node in its arena. -/
structure NodeId where
  index : Nat
  deriving DecidableEq, Inhabited

/-- A window of an arena's flat list of children. -/
structure NodeRange where
  start : Nat
  length : Nat
  deriving DecidableEq, Inhabited

namespace NodeRange

def empty : NodeRange := ⟨0, 0⟩

def stop (range : NodeRange) : Nat := range.start + range.length

def isEmpty (range : NodeRange) : Bool := range.length == 0

end NodeRange

structure BindNode where
  name : Name
  type : Option DeclaredType
  value : Option NodeId
  deriving DecidableEq

/-- A node that defines a structure: its inputs, and the block whose binds become properties. -/
structure StructureNode where
  name : Name
  inputs : NodeRange
  body : Option NodeId
  deriving DecidableEq

inductive NodeKind where
  | block (statements : NodeRange)
  | bind (bind : BindNode)
  | structureDef (definition : StructureNode)
  | property (subject member : NodeId)
  /-- The name in a property access. It is no place in a scope. -/
  | memberName (name : Name)
  | reference (name : Name)
  | evaluate (callee : NodeId) (arguments : NodeRange)
  | number (bits : UInt64)
  | text (content : Name)
  | boolean (value : Bool)
  | binary (op : BinaryOp) (left right : NodeId)
  | unary (op : UnaryOp) (operand : NodeId)
  | conditional (condition yes no : NodeId)
  deriving DecidableEq

/-- How messages name a kind of node. -/
def NodeKind.describe : NodeKind → String
  | .block _ => "block"
  | .bind _ => "bind"
  | .structureDef _ => "structure definition"
  | .property .. => "property reference"
  | .memberName _ => "member name"
  | .reference _ => "reference"
  | .evaluate .. => "evaluate"
  | .number _ => "number"
  | .text _ => "text"
  | .boolean _ => "boolean"
  | .binary .. => "binary operation"
  | .unary .. => "unary operation"
  | .conditional .. => "conditional"

structure Node where
  kind : NodeKind
  span : Span
  deriving DecidableEq

/-- What stands where no node does: an empty block. -/
def Node.absent : Node := ⟨.block .empty, .nowhere⟩

instance : Inhabited Node := ⟨.absent⟩

/-- The nodes of a tree in the order of their numbers, and the flat list of children. -/
structure Arena where
  nodes : Array Node := #[]
  lists : Array NodeId := #[]

namespace Arena

def empty : Arena := {}

instance : Inhabited Arena := ⟨empty⟩

def size (arena : Arena) : Nat := arena.nodes.size

def isEmpty (arena : Arena) : Bool := arena.size == 0

def add (arena : Arena) (node : Node) : NodeId × Arena :=
  (⟨arena.nodes.size⟩, { arena with nodes := arena.nodes.push node })

def addList (arena : Arena) (ids : List NodeId) : NodeRange × Arena :=
  (⟨arena.lists.size, ids.length⟩, { arena with lists := arena.lists ++ ids })

/-- The node of a number that `add` has given out. -/
def node (arena : Arena) (id : NodeId) : Node := arena.nodes[id.index]?.getD .absent

/-- The children in a window of the flat list. -/
def list (arena : Arena) (range : NodeRange) : List NodeId :=
  (arena.lists.extract range.start range.stop).toList

def children (arena : Arena) (id : NodeId) : List NodeId :=
  match (arena.node id).kind with
  | .block statements => arena.list statements
  | .bind bind => bind.value.toList
  | .structureDef definition => arena.list definition.inputs ++ definition.body.toList
  | .property subject member => [subject, member]
  | .evaluate callee arguments => callee :: arena.list arguments
  | .binary _ left right => [left, right]
  | .unary _ operand => [operand]
  | .conditional condition yes no => [condition, yes, no]
  | .memberName _ | .reference _ | .number _ | .text _ | .boolean _ => []

end Arena
end Bindery
