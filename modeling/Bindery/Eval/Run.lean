import Bindery.Eval.Operator
import Bindery.Eval.Step
import Bindery.Scope

/-!
Evaluating the nodes of a source. Names are resolved by the rules of scope, so a name that is not
visible at a node can never be read there. A visible bind is read from the frames being run; if none
of them holds it, as when a node is evaluated on its own, it is evaluated on demand and kept.

A construction runs in a frame of its own. Its inputs are bound in order, each to its argument or
else to its default, which sees the inputs before it; then the statements of the body run in the
same frame, and their binds become further properties.

Evaluations may nest only so deeply, which is a depth that none reaches: until a further frame is
entered, nested evaluations go to nodes inside the present one or to binds that end before it, so
none of them comes back to a node, and the frames are limited.
-/

namespace Bindery

namespace Step

def ofExcept {α : Type} : Except Fault α → Step α
  | .ok result => pure result
  | .error fault => fail fault

end Step

namespace Source

variable (source : Source) (recur : NodeId → Step Value)

/-- Evaluates nodes from left to right and comes to the last value, or to `last` if there are no
nodes. -/
def evalSequence (last : Value) : List NodeId → Step Value
  | [] => pure last
  | id :: rest => do evalSequence (← recur id) rest

/-- Evaluates nodes from left to right and comes to all values. -/
def evalEach : List NodeId → Step (List Value)
  | [] => pure []
  | id :: rest => do
    let value ← recur id
    return value :: (← evalEach rest)

def checkType (type : Option DeclaredType) (value : Value) : Step Unit :=
  match type with
  | none => pure ()
  | some type =>
    if value.conforms type then pure ()
    else .fail (.typeMismatch (type.describe source.interner) (value.typeName source.interner))

/-- The statements of a block run in a frame of their own. -/
def evalBlock (id : NodeId) (statements : NodeRange) : Step Value :=
  .inFrame source.interner ⟨.block, source.span id⟩
    (evalSequence recur .none (source.list statements))

def ownerName (id : NodeId) : String :=
  match (source.parent? id).bind source.definedName? with
  | some name => source.nameText name
  | none => ""

/-- A bind without a value is an input for which nothing was supplied. -/
def evalBind (id : NodeId) (bind : BindNode) : Step Value :=
  match bind.value with
  | none => .fail (.missingInput (source.ownerName id) (source.nameText bind.name))
  | some node => do
    let value ← recur node
    source.checkType bind.type value
    Step.record id value
    return value

/-- Evaluates a bind that no frame holds. -/
def demand (bind : NodeId) : Step Value := do
  let value ← recur bind
  Step.keep bind value
  return value

def evalReference (id : NodeId) (name : Name) : Step Value :=
  match source.definitionOf? id name with
  | some (.bind bind) => do
    match ← Step.lookup? bind with
    | some value => return value
    | none => demand recur bind
  | some (.structureDef definition) => pure (.structureRef definition name)
  | none => .fail (.undefinedName (source.nameText name))

def propertyOf (subject : Value) (member : NodeId) : Except Fault Value :=
  match source.kind member with
  | .memberName name =>
    match subject with
    | .inst _ typeName _ properties =>
      match Properties.get? properties name with
      | some value => .ok value
      | none => .error (.undefinedProperty (source.nameText typeName) (source.nameText name))
    | other => .error (.typeMismatch "structure instance" (other.typeName source.interner))
  | kind => .error (.typeMismatch "member name" kind.describe)

/-- Binds the inputs of a structure in order and adds them to the properties. -/
def supplyInputs (structureName : Name) :
    (inputs : List NodeId) → (arguments : List Value) → Properties → Step Properties
  | [], _, properties => pure properties
  | input :: rest, arguments, properties =>
    match source.bind? input with
    | none => supplyInputs structureName rest arguments properties
    | some bind => do
      let value ← match arguments, bind.value with
        | argument :: _, _ => pure argument
        | [], some default => recur default
        | [], none =>
          Step.fail (.missingInput (source.nameText structureName) (source.nameText bind.name))
      source.checkType bind.type value
      Step.record input value
      supplyInputs structureName rest arguments.tail (properties.set bind.name value)

/-- Runs the statements of a body and adds its binds to the properties. -/
def runBody : (statements : List NodeId) → Properties → Step Properties
  | [], properties => pure properties
  | statement :: rest, properties => do
    let value ← recur statement
    match source.bind? statement with
    | some bind => runBody rest (properties.set bind.name value)
    | none => runBody rest properties

def bodyStatements (definition : StructureNode) : List NodeId :=
  match definition.body.map source.kind with
  | some (.block statements) => source.list statements
  | _ => []

/-- Builds an instance of the structure that a node defines. -/
def construct (id : NodeId) (arguments : List Value) (callSpan : Span) : Step Value :=
  match source.structure? id with
  | none => .fail (.typeMismatch "structure definition" (source.kind id).describe)
  | some definition =>
    let inputs := source.list definition.inputs
    if arguments.length > inputs.length then
      .fail (.tooManyArguments (source.nameText definition.name) inputs.length arguments.length)
    else
      .inFrame source.interner ⟨.construct id definition.name, callSpan⟩ do
        let properties ← source.supplyInputs recur definition.name inputs arguments []
        let properties ← source.runBody recur (source.bodyStatements definition) properties
        Step.build definition.name id properties

/-- Callee, then arguments from left to right, then construction. -/
def evalEvaluate (id callee : NodeId) (arguments : NodeRange) : Step Value := do
  let callee ← recur callee
  let arguments ← evalEach recur (source.list arguments)
  match callee with
  | .structureRef definition _ => source.construct recur definition arguments (source.span id)
  | other => Step.fail (.typeMismatch "structure" (other.typeName source.interner))

def evalConditional (condition yes no : NodeId) : Step Value := do
  match ← recur condition with
  | .boolean true => recur yes
  | .boolean false => recur no
  | other => Step.fail (.typeMismatch "boolean" (other.typeName source.interner))

/-- Both operands are evaluated before the operator is looked at. -/
def evalBinary (op : BinaryOp) (left right : NodeId) : Step Value := do
  let left ← recur left
  let right ← recur right
  .ofExcept (op.apply source.interner left right)

def evalUnary (op : UnaryOp) (operand : NodeId) : Step Value := do
  let operand ← recur operand
  .ofExcept (op.apply source.interner operand)

/-- The subject is evaluated before the member is looked at. -/
def evalProperty (subject member : NodeId) : Step Value := do
  let subject ← recur subject
  .ofExcept (source.propertyOf subject member)

/-- Evaluates a node, nested evaluations being left to `recur`. -/
def evalKind (id : NodeId) : Step Value :=
  match source.kind id with
  | .block statements => source.evalBlock recur id statements
  | .bind bind => source.evalBind recur id bind
  | .structureDef definition => pure (.structureRef id definition.name)
  | .property subject member => source.evalProperty recur subject member
  | .memberName name | .reference name => source.evalReference recur id name
  | .evaluate callee arguments => source.evalEvaluate recur id callee arguments
  | .number bits => pure (.number (.ofBits bits))
  | .text content => pure (.text (source.nameText content))
  | .boolean value => pure (.boolean value)
  | .binary op left right => source.evalBinary recur op left right
  | .unary op operand => source.evalUnary recur op operand
  | .conditional condition yes no => source.evalConditional recur condition yes no

/-- Evaluates a node, evaluations being nested at most `steps` deep, this one included, and tells
where an error arose. -/
def eval : (steps : Nat) → NodeId → Step Value
  | 0, _ => .giveUp
  | steps + 1, id =>
    .located source.interner (source.span id) (source.evalKind (eval steps) id)

/-- A depth of nesting that no evaluation exceeds: in the present frame, and in each that can still
be entered, every node is met at most once before a further frame is entered. -/
def stepBound (context : Context) : Nat :=
  (context.maxDepth - context.depth + 1) * (source.arena.size + 1)

/-- Evaluates a node in a context. An error is a value like any other here. -/
def evaluate (id : NodeId) (context : Context) : Value × Context :=
  match source.eval (source.stepBound context) id context with
  | .value value context => (value, context)
  | .error error context => (.error error, context)
  | .unfinished => (.error { fault := .stackOverflow context.maxDepth }, context)

def evaluateRoot (context : Context) : Value × Context := source.evaluate source.root context

end Source

/-- Reads a text and evaluates it, the depth limit being set from outside. Only a text that is no
program fails here; an error of the evaluation is its value. -/
def evaluateText (text : String) (depthSetting : Option String) : Except ParseError Value := do
  let source ← (Source.parse "<code>" text .empty).1
  return (source.evaluateRoot (.fresh (.ofSetting depthSetting) 0)).1

end Bindery
