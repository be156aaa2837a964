import Bindery.Tree.Source

/-!
Which definitions are visible at a node. The question is answered by walking from the node up to the
root. A block shows the definitions among its statements before the path; a structure shows its
inputs before the path, or all of them to its body, and hides everything further out. The name in a
property access is no place in a scope, so nothing is visible there.
-/

namespace Bindery

inductive Definition where
  | bind (id : NodeId)
  | structureDef (id : NodeId)
  deriving DecidableEq

def Definition.node : Definition → NodeId
  | .bind id | .structureDef id => id

/-- What one step of the walk contributes. -/
inductive Visibility where
  /-- Statements that come before the path, with more to be seen further out. -/
  | collect (statements : List NodeId)
  | proceed
  /-- The visible inputs of a structure, with nothing to be seen further out. -/
  | stop (inputs : List NodeId)
  /-- The walk starts at no place in a scope. -/
  | hidden
  deriving DecidableEq

namespace Source

/-- What the step from `child` up to `ancestor` contributes. A child that `ancestor` does not list
counts as coming after its whole list. -/
def visibility (source : Source) (ancestor child : NodeId) : Visibility :=
  match source.kind ancestor with
  | .block statements => .collect ((source.list statements).takeWhile (· != child))
  | .structureDef definition =>
    let inputs := source.list definition.inputs
    if definition.body = some child then .stop inputs
    else .stop (inputs.takeWhile (· != child))
  | .property _ member => if member = child then .hidden else .proceed
  | _ => .proceed

def definition? (source : Source) (id : NodeId) : Option Definition :=
  match source.kind id with
  | .bind _ => some (.bind id)
  | .structureDef _ => some (.structureDef id)
  | _ => none

/-- The definitions visible from `child` along the path of its ancestors, a list for each of them
that contributes, innermost first; none if the path starts at no place in a scope. -/
def levelsAlong (source : Source) (child : NodeId) : List NodeId → Option (List (List Definition))
  | [] => some []
  | ancestor :: further =>
    match source.visibility ancestor child with
    | .collect statements =>
      (source.levelsAlong ancestor further).map (statements.filterMap source.definition? :: ·)
    | .proceed => source.levelsAlong ancestor further
    | .stop inputs => some [inputs.filterMap source.definition?]
    | .hidden => none

/-- The scope levels at a node, innermost first, each in the order of declaration. -/
def levels (source : Source) (id : NodeId) : List (List Definition) :=
  (source.levelsAlong id (source.ancestors id)).getD []

/-- Every definition visible at a node, innermost level first. -/
def definitionsInScope (source : Source) (id : NodeId) : List Definition :=
  (source.levels id).flatten

/-- The definition to which a name refers at a node: of the innermost level that defines it, the
last one. -/
def definitionOf? (source : Source) (id : NodeId) (name : Name) : Option Definition :=
  (source.levels id).findSome? fun level =>
    level.reverse.find? fun definition => source.definedName? definition.node == some name

/-- As `definitionOf?`, for a name given by its string. A string that was never named is defined
nowhere. -/
def definitionNamed? (source : Source) (id : NodeId) (name : String) : Option Definition :=
  (source.interner.get? name).bind (source.definitionOf? id)

end Source
end Bindery
