import Bindery.Tree.Source

/-!
Listings show every node of a tree in full, one line each, with numbers in place of names and
children.
-/

namespace Bindery

namespace Listing

/-- A possibly missing part. -/
def optional {α : Type} (listing : α → String) : Option α → String
  | none => "None"
  | some a => s!"Some({listing a})"

/-- Named parts between braces. -/
def record (name : String) (parts : List (String × String)) : String :=
  let shown := parts.map fun (field, value) => s!"{field}: {value}"
  name ++ " \x7b " ++ ", ".intercalate shown ++ " \x7d"

def binaryOp : BinaryOp → String
  | .add => "Add"
  | .subtract => "Sub"
  | .multiply => "Mul"
  | .divide => "Div"
  | .equal => "Eq"
  | .notEqual => "NotEq"
  | .less => "Lt"
  | .lessEqual => "LtEq"
  | .greater => "Gt"
  | .greaterEqual => "GtEq"
  | .and => "And"
  | .or => "Or"

def unaryOp : UnaryOp → String
  | .negate => "Neg"
  | .not => "Not"

def declaredType : DeclaredType → String
  | .text => "Text"
  | .number => "Number"
  | .boolean => "Boolean"
  | .named name => s!"Named({name.listing})"

end Listing

def NodeId.listing (id : NodeId) : String := s!"NodeId({id.index})"

def NodeRange.listing (range : NodeRange) : String := s!"NodeRange({range.start}..{range.stop})"

open Listing in
def NodeKind.listing : NodeKind → String
  | .block statements => record "Block" [("statements", statements.listing)]
  | .bind b =>
    let shown := record "Bind"
      [("name", b.name.listing), ("ty", optional declaredType b.type),
        ("value", optional NodeId.listing b.value)]
    s!"Bind({shown})"
  | .structureDef d =>
    let shown := record "StructureDefinition"
      [("name", d.name.listing), ("inputs", d.inputs.listing),
        ("body", optional NodeId.listing d.body)]
    s!"Structure({shown})"
  | .property subject member =>
    record "PropertyReference" [("subject", subject.listing), ("name", member.listing)]
  | .memberName name => s!"MemberName({name.listing})"
  | .reference name => s!"Reference({name.listing})"
  | .evaluate callee arguments =>
    record "Evaluate" [("callee", callee.listing), ("args", arguments.listing)]
  | .number bits => s!"Number({bits.toNat})"
  | .text content => s!"Text({content.listing})"
  | .boolean value => s!"Boolean({value})"
  | .binary op left right =>
    record "Binary" [("op", binaryOp op), ("left", left.listing), ("right", right.listing)]
  | .unary op operand => record "Unary" [("op", unaryOp op), ("operand", operand.listing)]
  | .conditional condition yes no =>
    record "Conditional"
      [("condition", condition.listing), ("yes", yes.listing), ("no", no.listing)]

/-- The line of a node. -/
def Source.nodeListing (source : Source) (id : NodeId) : String :=
  s!"{id.listing} {(source.kind id).listing} @ {(source.span id).text}"

/-- The lines of all nodes under the root, each before its children. -/
def Source.listing (source : Source) : List String := source.nodes.map source.nodeListing

end Bindery
