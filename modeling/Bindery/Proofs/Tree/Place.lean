import Bindery.Tree.Numbering

/-!
Which nodes may stand where. The child of a node has a place there, and a place admits nodes by
their shape: binds and structure definitions stand among the statements of a block, binds alone
among the inputs of a structure, a body is a block, and the name in a property access is nothing
else.
-/

namespace Bindery

/-- What the place of a node depends on. -/
inductive Shape where
  | block
  | bind (valued : Bool)
  | structureDef
  | memberName
  | plain
  deriving DecidableEq

/-- What a child is to its parent. -/
inductive Place where
  | statement | input | body | member | expression
  deriving DecidableEq

def Place.admits : Place → Shape → Bool
  | .statement, .block | .statement, .bind true | .statement, .structureDef
  | .statement, .plain => true
  | .input, .bind _ => true
  | .body, .block => true
  | .member, .memberName => true
  | .expression, .block | .expression, .plain => true
  | _, _ => false

/-- Every expression is a statement. -/
theorem Place.statement_of_expression {shape : Shape}
    (h : Place.expression.admits shape = true) : Place.statement.admits shape = true := by
  cases shape with
  | block | plain => rfl
  | bind _ | structureDef | memberName => cases h

def NodeKind.shape : NodeKind → Shape
  | .block _ => .block
  | .bind declared => .bind declared.value.isSome
  | .structureDef _ => .structureDef
  | .memberName _ => .memberName
  | _ => .plain

def Phrase.shape : Phrase → Shape
  | .block .. => .block
  | .bind _ _ _ value => .bind value.isSome
  | .structureDef .. => .structureDef
  | _ => .plain

mutual

/-- The pieces of a phrase stand where they may, and the phrase may stand at the given place. -/
def Phrase.Fits (place : Place) : Phrase → Prop
  | .block _ statements => place.admits .block ∧ Phrase.FitAll .statement statements
  | .bind _ _ _ value => place.admits (.bind value.isSome) ∧ Phrase.FitsIfAny .expression value
  | .structureDef _ _ inputs body =>
    place.admits .structureDef ∧ Phrase.FitAll .input inputs ∧ Phrase.FitsIfAny .body body
  | .property _ subject _ _ => place.admits .plain ∧ subject.Fits .expression
  | .evaluate _ callee arguments =>
    place.admits .plain ∧ callee.Fits .expression ∧ Phrase.FitAll .expression arguments
  | .binary _ _ left right =>
    place.admits .plain ∧ left.Fits .expression ∧ right.Fits .expression
  | .unary _ _ operand => place.admits .plain ∧ operand.Fits .expression
  | .conditional _ condition yes no =>
    place.admits .plain ∧ condition.Fits .expression ∧ yes.Fits .expression ∧ no.Fits .expression
  | .reference .. | .number .. | .text .. | .boolean .. => place.admits .plain

def Phrase.FitsIfAny (place : Place) : Option Phrase → Prop
  | none => True
  | some p => p.Fits place

def Phrase.FitAll (place : Place) : List Phrase → Prop
  | [] => True
  | p :: rest => p.Fits place ∧ Phrase.FitAll place rest

end

/-- A phrase that may stand at one place may stand at every place that admits its shape. -/
theorem Phrase.Fits.at {p : Phrase} {place place' : Place} (h : p.Fits place)
    (hadmits : place'.admits p.shape = true) : p.Fits place' := by
  cases p with
  | block | bind | structureDef | property | evaluate | binary | unary | conditional =>
      exact ⟨hadmits, h.2⟩
  | reference | number | text | boolean => exact hadmits

theorem Phrase.Fits.admits {p : Phrase} {place : Place} (h : p.Fits place) :
    place.admits p.shape = true := by
  cases p with
  | block | bind | structureDef | property | evaluate | binary | unary | conditional => exact h.1
  | reference | number | text | boolean => exact h

theorem Phrase.Fits.statement {p : Phrase} (h : p.Fits .expression) : p.Fits .statement :=
  h.at (Place.statement_of_expression h.admits)

theorem NodeKind.ne_bind_of_expression {kind : NodeKind}
    (h : Place.expression.admits kind.shape = true) (bind : BindNode) : kind ≠ .bind bind := by
  intro hkind
  rw [hkind] at h
  cases h

theorem NodeKind.ne_structureDef_of_expression {kind : NodeKind}
    (h : Place.expression.admits kind.shape = true) (definition : StructureNode) :
    kind ≠ .structureDef definition := by
  intro hkind
  rw [hkind] at h
  cases h

theorem NodeKind.exists_bind_of_input {kind : NodeKind}
    (h : Place.input.admits kind.shape = true) : ∃ bind, kind = .bind bind := by
  cases kind with
  | bind bind => exact ⟨bind, rfl⟩
  | block | structureDef | property | memberName | reference | evaluate | number | text | boolean
  | binary | unary | conditional => cases h

theorem NodeKind.exists_block_of_body {kind : NodeKind}
    (h : Place.body.admits kind.shape = true) : ∃ statements, kind = .block statements := by
  cases kind with
  | block statements => exact ⟨statements, rfl⟩
  | bind | structureDef | property | memberName | reference | evaluate | number | text | boolean
  | binary | unary | conditional => cases h

theorem NodeKind.exists_memberName_of_member {kind : NodeKind}
    (h : Place.member.admits kind.shape = true) : ∃ name, kind = .memberName name := by
  cases kind with
  | memberName name => exact ⟨name, rfl⟩
  | block | bind | structureDef | property | reference | evaluate | number | text | boolean
  | binary | unary | conditional => cases h

namespace Arena

variable {arena : Arena}

def kind (arena : Arena) (id : NodeId) : NodeKind := (arena.node id).kind

/-- The children that a kind of node lists, with their places. -/
def placements (arena : Arena) : NodeKind → List (Place × NodeId)
  | .block statements => (arena.list statements).map (.statement, ·)
  | .bind bind => bind.value.toList.map (.expression, ·)
  | .structureDef definition =>
    (arena.list definition.inputs).map (.input, ·) ++ definition.body.toList.map (.body, ·)
  | .property subject member => [(.expression, subject), (.member, member)]
  | .evaluate callee arguments =>
    (.expression, callee) :: (arena.list arguments).map (.expression, ·)
  | .binary _ left right => [(.expression, left), (.expression, right)]
  | .unary _ operand => [(.expression, operand)]
  | .conditional condition yes no =>
    [(.expression, condition), (.expression, yes), (.expression, no)]
  | .memberName _ | .reference _ | .number _ | .text _ | .boolean _ => []

theorem children_eq_map_placements (id : NodeId) :
    arena.children id = (arena.placements (arena.kind id)).map Prod.snd := by
  simp only [children, kind]
  cases (arena.node id).kind with
  | block | structureDef | evaluate =>
      simp only [placements, List.map_append, List.map_map, List.map_cons, Function.comp_def,
        List.map_id_fun', id_eq]
  | bind bind => simp only [placements, List.map_map, Function.comp_def, List.map_id_fun', id_eq]
  | property | binary | unary | conditional | memberName | reference | number | text | boolean =>
      rfl

/-- All children of a node stand at places that admit them. -/
def NodeFits (arena : Arena) (id : NodeId) : Prop :=
  ∀ child ∈ arena.placements (arena.kind id), child.1.admits (arena.kind child.2).shape = true

end Arena
end Bindery
