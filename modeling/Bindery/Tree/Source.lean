import Bindery.Tree.Numbering
import Bindery.Phrase.Parser

/-!
A source is a program as a tree of numbered nodes, with two indexes that are made once: the nodes in
the order in which a reader meets them, and the parent of each of these nodes. Nodes of the arena
that cannot be reached from the root are in neither.
-/

namespace Bindery

namespace Arena

/-- The nodes below the pending ones, each before its children, the first pending one first. As
many steps are taken as the budget allows; a tree needs one for each of its nodes. -/
def preorderFrom (arena : Arena) : (budget : Nat) → (pending : List NodeId) → List NodeId
  | 0, _ | _, [] => []
  | budget + 1, id :: pending => id :: arena.preorderFrom budget (arena.children id ++ pending)

/-- The nodes of the tree under `root`, each before its children. -/
def preorder (arena : Arena) (root : NodeId) : List NodeId :=
  arena.preorderFrom arena.size [root]

/-- For each number the node that has it as a child, among the given nodes. -/
def parents (arena : Arena) (nodes : List NodeId) : Array (Option NodeId) :=
  nodes.foldl
    (fun table id =>
      (arena.children id).foldl
        (fun table child => table.setIfInBounds child.index (some id)) table)
    (Array.replicate arena.size none)

end Arena

/-- A program as a tree of nodes. -/
structure Source where
  /-- What the program is called: a file's name or a label. -/
  name : String
  text : String
  arena : Arena
  root : NodeId
  interner : Interner
  /-- The nodes under the root, each before its children. -/
  nodes : List NodeId
  parents : Array (Option NodeId)

namespace Source

def ofArena (name text : String) (arena : Arena) (root : NodeId) (interner : Interner) : Source :=
  let nodes := arena.preorder root
  { name, text, arena, root, interner, nodes, parents := arena.parents nodes }

def ofPhrase (name text : String) (phrase : Phrase) (interner : Interner) : Source :=
  let (root, arena) := phrase.numbered
  .ofArena name text arena root interner

/-- Reads a text as a source, naming its identifiers and texts in the given table. -/
def parse (name text : String) (interner : Interner) : Except ParseError Source × Interner :=
  match lex text interner with
  | (.error error, interner) => (.error (.lexical error), interner)
  | (.ok tokens, interner) =>
    ((tokens.parse interner).map (ofPhrase name text · interner), interner)

def node (source : Source) (id : NodeId) : Node := source.arena.node id

def kind (source : Source) (id : NodeId) : NodeKind := (source.node id).kind

def span (source : Source) (id : NodeId) : Span := (source.node id).span

def list (source : Source) (range : NodeRange) : List NodeId := source.arena.list range

def children (source : Source) (id : NodeId) : List NodeId := source.arena.children id

/-- How many nodes stand under the root, the root included. -/
def size (source : Source) : Nat := source.nodes.length

def isEmpty (source : Source) : Bool := source.nodes.isEmpty

def parent? (source : Source) (id : NodeId) : Option NodeId := source.parents[id.index]?.join

/-- At most `budget` nodes of the path from the parent of a node upwards. -/
def ancestorsUpTo (source : Source) : (budget : Nat) → NodeId → List NodeId
  | 0, _ => []
  | budget + 1, id =>
    match source.parent? id with
    | none => []
    | some parent => parent :: source.ancestorsUpTo budget parent

/-- The nodes on the path from the parent of a node to the root. -/
def ancestors (source : Source) (id : NodeId) : List NodeId :=
  source.ancestorsUpTo source.arena.size id

/-- The first node, in the order of the index, whose kind passes a test. -/
def find? (source : Source) (test : NodeKind → Bool) : Option NodeId :=
  source.nodes.find? fun id => test (source.kind id)

def bind? (source : Source) (id : NodeId) : Option BindNode :=
  match source.kind id with
  | .bind bind => some bind
  | _ => none

def structure? (source : Source) (id : NodeId) : Option StructureNode :=
  match source.kind id with
  | .structureDef definition => some definition
  | _ => none

def definedName? (source : Source) (id : NodeId) : Option Name :=
  match source.kind id with
  | .bind bind => some bind.name
  | .structureDef definition => some definition.name
  | _ => none

def nameText (source : Source) (name : Name) : String := source.interner.lookup name

end Source
end Bindery
