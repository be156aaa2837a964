import Bindery.Eval.Operator

/-!
Evaluation by lexical scope alone. The names declared so far stand in a list, together with what
they stand for, and a name means its last entry. The list is handed down to whatever is evaluated
next; a construction starts from an empty one. Nothing is resolved, no frame is kept, and no value
is looked for elsewhere: besides the list there is only the number of blocks and constructions that
are being run.
-/

namespace Bindery.Lexical

/-- What a name stands for. -/
inductive Entry where
  | value (value : Value)
  | structureDef (definition : NodeId)

/-- The names declared so far, the latest one last. -/
abbrev Scope := List (Name × Entry)

def Scope.find? (scope : Scope) (name : Name) : Option Entry := scope.reverse.lookup name

/-- What went wrong, and the innermost node whose evaluation failed. -/
structure PlacedFault where
  fault : Fault
  span : Option Span := none

/-- A run counts the instances that are built. It fails, or gives up where evaluations nest more
deeply than they may. -/
abbrev Run := ExceptT PlacedFault (StateT Nat Option)

namespace Run

variable {α : Type}

def fail (fault : Fault) : Run α := throw { fault }

def giveUp : Run α := fun _ => none

def ofExcept : Except Fault α → Run α
  | .ok result => pure result
  | .error fault => fail fault

/-- Gives a failure the place of the node that was evaluated, unless it has a place. -/
def located (span : Span) (run : Run α) : Run α :=
  tryCatch run fun failure => throw { failure with span := failure.span <|> some span }

theorem bind_apply {β : Type} (run : Run α) (next : α → Run β) (built : Nat) :
    (run >>= next) built =
      match run built with
      | none => none
      | some (.ok result, built) => next result built
      | some (.error failure, built) => some (.error failure, built) := by
  simp only [Bind.bind, ExceptT.bind, ExceptT.mk, StateT.bind]
  cases run built with
  | none => rfl
  | some outcome =>
      obtain ⟨outcome, built⟩ := outcome
      cases outcome <;> rfl

theorem located_apply (span : Span) (run : Run α) (built : Nat) :
    located span run built =
      match run built with
      | none => none
      | some (.ok result, built) => some (.ok result, built)
      | some (.error failure, built) =>
        some (.error { failure with span := failure.span <|> some span }, built) := by
  simp only [located, tryCatch, tryCatchThe, MonadExceptOf.tryCatch, ExceptT.tryCatch, ExceptT.mk,
    Bind.bind, StateT.bind]
  cases run built with
  | none => rfl
  | some outcome =>
      obtain ⟨outcome, built⟩ := outcome
      cases outcome <;> rfl

end Run

/-- A tree with the table of its names, how many blocks and constructions may be run at once, and
what sets the instances that are built apart from others. -/
structure Program where
  arena : Arena
  interner : Interner
  limit : Nat
  owner : Nat

namespace Program

variable (program : Program) (recur : Scope → NodeId → Run Value)

def kind (id : NodeId) : NodeKind := (program.arena.node id).kind

def nameText (name : Name) : String := program.interner.lookup name

/-- Runs what is inside a block or a construction if it may be run besides `live` others. -/
def entered {α : Type} (live : Nat) (run : Run α) : Run α :=
  if live < program.limit then run else .fail (.stackOverflow program.limit)

/-- What a statement that has come to a value adds to the names declared. -/
def declared (id : NodeId) (value : Value) : Scope :=
  match program.kind id with
  | .bind bind => [(bind.name, .value value)]
  | .structureDef definition => [(definition.name, .structureDef id)]
  | _ => []

/-- Statements from left to right, each seeing what the ones before it have declared. -/
def evalStatements : Scope → (last : Value) → List NodeId → Run Value
  | _, last, [] => pure last
  | scope, _, id :: rest => do
    let value ← recur scope id
    evalStatements (scope ++ program.declared id value) value rest

def evalEach (scope : Scope) : List NodeId → Run (List Value)
  | [] => pure []
  | id :: rest => do
    let value ← recur scope id
    return value :: (← evalEach scope rest)

def checkType (type : Option DeclaredType) (value : Value) : Run Unit :=
  match type with
  | none => pure ()
  | some type =>
    if value.conforms type then pure ()
    else .fail (.typeMismatch (type.describe program.interner) (value.typeName program.interner))

/-- The value of an input: its argument, or else its default. -/
def inputValue (scope : Scope) (structureName : Name) (bind : BindNode) :
    (arguments : List Value) → Run Value
  | argument :: _ => pure argument
  | [] =>
    match bind.value with
    | some default => recur scope default
    | none => .fail (.missingInput (program.nameText structureName) (program.nameText bind.name))

/-- The inputs of a structure in order, a default seeing the inputs before it. -/
def evalInputs (structureName : Name) :
    Scope → List NodeId → (arguments : List Value) → Properties → Run (Scope × Properties)
  | scope, [], _, properties => pure (scope, properties)
  | scope, input :: rest, arguments, properties =>
    match program.kind input with
    | .bind bind => do
      let value ← program.inputValue recur scope structureName bind arguments
      program.checkType bind.type value
      evalInputs structureName (scope ++ [(bind.name, .value value)]) rest arguments.tail
        (properties.set bind.name value)
    | _ => evalInputs structureName scope rest arguments properties

/-- The properties after a statement of a body that has come to a value. -/
def kept (id : NodeId) (value : Value) (properties : Properties) : Properties :=
  match program.kind id with
  | .bind bind => properties.set bind.name value
  | _ => properties

/-- The statements of a body, which see the inputs and the statements before them. -/
def evalBody : Scope → List NodeId → Properties → Run Properties
  | _, [], properties => pure properties
  | scope, id :: rest, properties => do
    let value ← recur scope id
    evalBody (scope ++ program.declared id value) rest (program.kept id value properties)

def bodyStatements (definition : StructureNode) : List NodeId :=
  match definition.body.map program.kind with
  | some (.block statements) => program.arena.list statements
  | _ => []

def build (typeName : Name) (definition : NodeId) (properties : Properties) : Run Value := do
  let built ← get
  set (built + 1)
  return .inst ⟨program.owner, built⟩ typeName definition properties

/-- Builds an instance, nothing being declared at first. -/
def construct (live : Nat) (id : NodeId) (arguments : List Value) : Run Value :=
  match program.kind id with
  | .structureDef definition =>
    let inputs := program.arena.list definition.inputs
    if arguments.length > inputs.length then
      .fail (.tooManyArguments (program.nameText definition.name) inputs.length arguments.length)
    else
      program.entered live do
        let (scope, properties) ← program.evalInputs recur definition.name [] inputs arguments []
        let properties ← program.evalBody recur scope (program.bodyStatements definition) properties
        program.build definition.name id properties
  | kind => .fail (.typeMismatch "structure definition" kind.describe)

def evalReference (scope : Scope) (name : Name) : Run Value :=
  match scope.find? name with
  | some (.value value) => pure value
  | some (.structureDef definition) => pure (.structureRef definition name)
  | none => .fail (.undefinedName (program.nameText name))

def propertyOf (subject : Value) (member : NodeId) : Except Fault Value :=
  match program.kind member with
  | .memberName name =>
    match subject with
    | .inst _ typeName _ properties =>
      match Properties.get? properties name with
      | some value => .ok value
      | none => .error (.undefinedProperty (program.nameText typeName) (program.nameText name))
    | other => .error (.typeMismatch "structure instance" (other.typeName program.interner))
  | kind => .error (.typeMismatch "member name" kind.describe)

/-- Evaluates a node while `live` blocks and constructions are being run. Nested evaluations are
left to `recur`, which is told how many are run there. -/
def evalKind (recur : (live : Nat) → Scope → NodeId → Run Value) (live : Nat) (scope : Scope)
    (id : NodeId) : Run Value :=
  match program.kind id with
  | .block statements =>
    program.entered live
      (program.evalStatements (recur (live + 1)) scope .none (program.arena.list statements))
  | .bind bind => do
    let value ← program.inputValue (recur live) scope .empty bind []
    program.checkType bind.type value
    return value
  | .structureDef definition => pure (.structureRef id definition.name)
  | .property subject member => do
    let subject ← recur live scope subject
    .ofExcept (program.propertyOf subject member)
  | .memberName name | .reference name => program.evalReference scope name
  | .evaluate callee arguments => do
    let callee ← recur live scope callee
    let arguments ← evalEach (recur live) scope (program.arena.list arguments)
    match callee with
    | .structureRef definition _ => program.construct (recur (live + 1)) live definition arguments
    | other => .fail (.typeMismatch "structure" (other.typeName program.interner))
  | .number bits => pure (.number (.ofBits bits))
  | .text content => pure (.text (program.nameText content))
  | .boolean value => pure (.boolean value)
  | .binary op left right => do
    let left ← recur live scope left
    let right ← recur live scope right
    .ofExcept (op.apply program.interner left right)
  | .unary op operand => do
    let operand ← recur live scope operand
    .ofExcept (op.apply program.interner operand)
  | .conditional condition yes no => do
    match ← recur live scope condition with
    | .boolean true => recur live scope yes
    | .boolean false => recur live scope no
    | other => .fail (.typeMismatch "boolean" (other.typeName program.interner))

/-- Evaluates a node, evaluations being nested at most `steps` deep. -/
def eval : (steps live : Nat) → Scope → NodeId → Run Value
  | 0, _, _, _ => .giveUp
  | steps + 1, live, scope, id =>
    .located (program.arena.node id).span (program.evalKind (eval steps) live scope id)

/-- What a whole program comes to, unless evaluations nest too deeply. -/
def evaluate (steps : Nat) (root : NodeId) : Option (Except PlacedFault Value) :=
  (program.eval steps 0 [] root 0).map Prod.fst

end Program

/-- A value answers as a run does, where a failure is answered by an error of the same kind at the
same place. -/
def Answers : Except PlacedFault Value → Value → Prop
  | .ok result, value => value = result
  | .error failure, value =>
    ∃ backtrace, value = .error { fault := failure.fault, span := failure.span, backtrace }

end Bindery.Lexical
