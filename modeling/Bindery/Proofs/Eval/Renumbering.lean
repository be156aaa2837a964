import Bindery.Eval.Operator

/-!
What the numbers of definitions matter for. Values carry the numbers of the structures that they
come from, and nothing but equality looks at these. So values whose definitions have been
renumbered, no two of them to one number, behave as before.
-/

namespace Bindery

mutual

/-- The value with other numbers for the definitions in it. -/
def Value.renumbered (move : NodeId → NodeId) : Value → Value
  | .structureRef definition name => .structureRef (move definition) name
  | .inst identity typeName definition properties =>
    .inst identity typeName (move definition) (propertiesRenumbered move properties)
  | .none => .none
  | .text s => .text s
  | .number x => .number x
  | .boolean b => .boolean b
  | .error e => .error e

def propertiesRenumbered (move : NodeId → NodeId) : List (Name × Value) → List (Name × Value)
  | [] => []
  | (name, value) :: rest => (name, value.renumbered move) :: propertiesRenumbered move rest

end

variable {move : NodeId → NodeId}

theorem Value.typeName_renumbered (value : Value) (interner : Interner) :
    (value.renumbered move).typeName interner = value.typeName interner := by
  cases value <;> rfl

theorem Value.conforms_renumbered (value : Value) (type : DeclaredType) :
    (value.renumbered move).conforms type = value.conforms type := by
  cases value <;> cases type <;> rfl

theorem propertiesRenumbered_set (properties : Properties) (name : Name) (value : Value) :
    propertiesRenumbered move (properties.set name value) =
      Properties.set (propertiesRenumbered move properties) name (value.renumbered move) := by
  induction properties with
  | nil => rfl
  | cons entry rest ih =>
      obtain ⟨other, old⟩ := entry
      simp only [Properties.set, propertiesRenumbered]
      split
      · rfl
      · rw [propertiesRenumbered, ih]

theorem get?_propertiesRenumbered (properties : Properties) (name : Name) :
    Properties.get? (propertiesRenumbered move properties) name =
      (properties.get? name).map (.renumbered move) := by
  induction properties with
  | nil => rfl
  | cons entry rest ih =>
      obtain ⟨other, old⟩ := entry
      simp only [propertiesRenumbered, Properties.get?_cons, ih]
      split <;> rfl

theorem UnaryOp.apply_renumbered (op : UnaryOp) (interner : Interner) (value : Value) :
    op.apply interner (value.renumbered move) =
      (op.apply interner value).map (.renumbered move) := by
  cases value <;> cases op <;> rfl

theorem beq_move (hmove : ∀ id other, move id = move other → id = other) (id other : NodeId) :
    (move id == move other) = (id == other) := by
  rw [Bool.eq_iff_iff, beq_iff_eq, beq_iff_eq]
  exact ⟨hmove id other, congrArg move⟩

mutual

/-- Renumbered values compare as before. -/
theorem Value.beq_renumbered (hmove : ∀ id other, move id = move other → id = other) :
    (value other : Value) →
    (value.renumbered move).beq (other.renumbered move) = value.beq other
  | .inst identity _ definition properties, other => by
      cases other with
      | inst identity' typeName definition' properties' =>
          simp only [Value.renumbered, Value.beq, beq_move hmove,
            propertiesBeq_renumbered hmove properties properties']
      | none | text | number | boolean | structureRef | error => rfl
  | .structureRef definition name, other => by
      cases other with
      | structureRef => simp only [Value.renumbered, Value.beq, beq_move hmove]
      | none | text | number | boolean | inst | error => rfl
  | .none, other | .text _, other | .number _, other | .boolean _, other | .error _, other => by
      cases other <;> rfl

theorem propertiesBeq_renumbered (hmove : ∀ id other, move id = move other → id = other) :
    (properties others : List (Name × Value)) →
    Value.propertiesBeq (propertiesRenumbered move properties) (propertiesRenumbered move others) =
      Value.propertiesBeq properties others
  | [], others => by cases others <;> rfl
  | (name, value) :: rest, others => by
      cases others with
      | nil => rfl
      | cons entry rest' =>
          obtain ⟨name', value'⟩ := entry
          simp only [propertiesRenumbered, Value.propertiesBeq,
            Value.beq_renumbered hmove value value', propertiesBeq_renumbered hmove rest rest']

end

theorem BinaryOp.apply_renumbered (hmove : ∀ id other, move id = move other → id = other)
    (op : BinaryOp) (interner : Interner) (left right : Value) :
    op.apply interner (left.renumbered move) (right.renumbered move) =
      (op.apply interner left right).map (.renumbered move) := by
  have hbeq : (left.renumbered move == right.renumbered move) = (left == right) :=
    Value.beq_renumbered hmove left right
  cases op with
  | equal => simp only [BinaryOp.apply, hbeq]; rfl
  | notEqual => simp only [BinaryOp.apply, bne, hbeq]; rfl
  | add | subtract | multiply | divide | less | lessEqual | greater | greaterEqual | and | or =>
      cases left <;> first | rfl | (cases right <;> rfl)

end Bindery
