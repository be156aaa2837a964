import Bindery.Eval.Run

/-!
Values up to the identities of instances. Two runs build instances under identities of their own; a
pairing says which identity of the one run stands for which of the other. Values are alike where
they differ in nothing but paired identities. If the pairing is one to one, alike values compare
alike, and every operator makes alike results of them.
-/

namespace Bindery

/-- Which identity stands for which. -/
abbrev Pairing := Identity → Identity → Prop

/-- No identity stands for two. -/
structure Pairing.OneToOne (pairing : Pairing) : Prop where
  right_unique : ∀ {i j j'}, pairing i j → pairing i j' → j = j'
  left_unique : ∀ {i i' j}, pairing i j → pairing i' j → i = i'

theorem Pairing.OneToOne.beq_eq {pairing : Pairing} (h : pairing.OneToOne) {i i' j j' : Identity}
    (hi : pairing i i') (hj : pairing j j') : (i == j) = (i' == j') := by
  by_cases heq : i = j
  · subst heq
    rw [h.right_unique hi hj]
    simp only [beq_self_eq_true]
  · have hne : i' ≠ j' := by
      rintro rfl
      exact heq (h.left_unique hi hj)
    rw [beq_false_of_ne heq, beq_false_of_ne hne]

/-- Pairings go together where they pair what they have in common alike. -/
theorem Pairing.OneToOne.or {pairing pairing' : Pairing} (h : pairing.OneToOne)
    (h' : pairing'.OneToOne)
    (hleft : ∀ {i j j'}, pairing i j → pairing' i j' → pairing' i j)
    (hright : ∀ {i i' j}, pairing i j → pairing' i' j → pairing i' j) :
    Pairing.OneToOne fun i j => pairing i j ∨ pairing' i j where
  right_unique := by
    rintro i j j' (hj | hj) (hj' | hj')
    · exact h.right_unique hj hj'
    · exact h'.right_unique (hleft hj hj') hj'
    · exact h'.right_unique hj (hleft hj' hj)
    · exact h'.right_unique hj hj'
  left_unique := by
    rintro i i' j (hi | hi) (hi' | hi')
    · exact h.left_unique hi hi'
    · exact h.left_unique hi (hright hi hi')
    · exact h.left_unique (hright hi' hi) hi'
    · exact h'.left_unique hi hi'

mutual

/-- The values are the same up to paired identities. -/
def Value.Alike (pairing : Pairing) : Value → Value → Prop
  | .inst identity typeName definition properties, value' =>
    ∃ identity' properties', value' = .inst identity' typeName definition properties' ∧
      pairing identity identity' ∧ PropertiesAlike pairing properties properties'
  | .none, value' => value' = .none
  | .text s, value' => value' = .text s
  | .number x, value' => value' = .number x
  | .boolean b, value' => value' = .boolean b
  | .structureRef definition name, value' => value' = .structureRef definition name
  | .error e, value' => value' = .error e

/-- The same names in the same order, with values that are alike. -/
def PropertiesAlike (pairing : Pairing) : List (Name × Value) → List (Name × Value) → Prop
  | [], properties' => properties' = []
  | (name, value) :: rest, properties' =>
    ∃ value' rest', properties' = (name, value') :: rest' ∧ value.Alike pairing value' ∧
      PropertiesAlike pairing rest rest'

end

mutual

theorem Value.Alike.mono {pairing pairing' : Pairing} (hle : ∀ i i', pairing i i' → pairing' i i') :
    ∀ {value value' : Value}, value.Alike pairing value' → value.Alike pairing' value'
  | .inst .., _, h => by
      obtain ⟨identity', properties', rfl, hidentity, hproperties⟩ := h
      exact ⟨identity', properties', rfl, hle _ _ hidentity, hproperties.mono hle⟩
  | .none, _, h | .text _, _, h | .number _, _, h | .boolean _, _, h | .structureRef _ _, _, h
  | .error _, _, h => h

theorem PropertiesAlike.mono {pairing pairing' : Pairing}
    (hle : ∀ i i', pairing i i' → pairing' i i') :
    ∀ {properties properties' : List (Name × Value)},
      PropertiesAlike pairing properties properties' →
        PropertiesAlike pairing' properties properties'
  | [], _, h => h
  | (_, _) :: _, _, h => by
      obtain ⟨value', rest', rfl, hvalue, hrest⟩ := h
      exact ⟨value', rest', rfl, hvalue.mono hle, hrest.mono hle⟩

end

mutual

/-- Seen from the other side the identities are paired the other way round. -/
theorem Value.Alike.symm {pairing : Pairing} :
    ∀ {value value' : Value}, value.Alike pairing value' →
      value'.Alike (fun i j => pairing j i) value
  | .inst .., _, h => by
      obtain ⟨_, _, rfl, hidentity, hproperties⟩ := h
      exact ⟨_, _, rfl, hidentity, hproperties.symm⟩
  | .none, _, h | .text _, _, h | .number _, _, h | .boolean _, _, h | .structureRef _ _, _, h
  | .error _, _, h => by
      cases h
      rfl

theorem PropertiesAlike.symm {pairing : Pairing} :
    ∀ {properties properties' : List (Name × Value)},
      PropertiesAlike pairing properties properties' →
        PropertiesAlike (fun i j => pairing j i) properties' properties
  | [], _, h => by
      cases h
      rfl
  | (_, _) :: _, _, h => by
      obtain ⟨_, _, rfl, hvalue, hrest⟩ := h
      exact ⟨_, _, rfl, hvalue.symm, hrest.symm⟩

end

mutual

/-- Values alike to other values compare as these do. -/
theorem Value.Alike.beq_eq {pairing : Pairing} (hpairing : pairing.OneToOne) :
    ∀ {value value' other other' : Value}, value.Alike pairing value' →
      other.Alike pairing other' → Value.beq value other = Value.beq value' other'
  | .inst identity typeName definition properties, _, other, _, h, h' => by
      obtain ⟨identity', properties', rfl, hidentity, hproperties⟩ := h
      cases other with
      | inst identityO typeNameO definitionO propertiesO =>
          obtain ⟨identityO', propertiesO', rfl, hidentityO, hpropertiesO⟩ := h'
          simp only [Value.beq, hpairing.beq_eq hidentity hidentityO,
            hproperties.beq_eq hpairing hpropertiesO]
      | none | text | number | boolean | structureRef | error =>
          cases h'
          rfl
  | .none, _, other, _, h, h' | .text _, _, other, _, h, h' | .number _, _, other, _, h, h'
  | .boolean _, _, other, _, h, h' | .structureRef _ _, _, other, _, h, h'
  | .error _, _, other, _, h, h' => by
      cases h
      cases other with
      | inst =>
          obtain ⟨_, _, rfl, -, -⟩ := h'
          rfl
      | none | text | number | boolean | structureRef | error =>
          cases h'
          rfl

theorem PropertiesAlike.beq_eq {pairing : Pairing} (hpairing : pairing.OneToOne) :
    ∀ {properties properties' others others' : List (Name × Value)},
      PropertiesAlike pairing properties properties' → PropertiesAlike pairing others others' →
        Value.propertiesBeq properties others = Value.propertiesBeq properties' others'
  | [], _, others, _, h, h' => by
      cases h
      cases others with
      | nil =>
          cases h'
          rfl
      | cons other rest =>
          obtain ⟨_, _, rfl, -, -⟩ := h'
          rfl
  | (name, value) :: rest, _, others, _, h, h' => by
      obtain ⟨value', rest', rfl, hvalue, hrest⟩ := h
      cases others with
      | nil =>
          cases h'
          rfl
      | cons other others =>
          obtain ⟨other', others', rfl, hother, hothers⟩ := h'
          simp only [Value.propertiesBeq, hvalue.beq_eq hpairing hother,
            hrest.beq_eq hpairing hothers]

end

/-- Both come to alike values, or both fail in the same way. -/
inductive ResultsAlike (pairing : Pairing) : Except Fault Value → Except Fault Value → Prop
  | ok {value value' : Value} : value.Alike pairing value' →
      ResultsAlike pairing (.ok value) (.ok value')
  | error (fault : Fault) : ResultsAlike pairing (.error fault) (.error fault)

namespace Value.Alike

variable {pairing : Pairing} {value value' other other' : Value}

theorem typeName_eq (h : value.Alike pairing value') (interner : Interner) :
    value'.typeName interner = value.typeName interner := by
  cases value with
  | inst =>
      obtain ⟨_, _, rfl, -, -⟩ := h
      rfl
  | none | text | number | boolean | structureRef | error =>
      cases h
      rfl

theorem conforms_eq (h : value.Alike pairing value') (type : DeclaredType) :
    value'.conforms type = value.conforms type := by
  cases value with
  | inst =>
      obtain ⟨_, _, rfl, -, -⟩ := h
      cases type <;> rfl
  | none | text | number | boolean | structureRef | error =>
      cases h
      rfl

theorem unary (h : value.Alike pairing value') (interner : Interner) (op : UnaryOp) :
    ResultsAlike pairing (op.apply interner value) (op.apply interner value') := by
  cases value with
  | inst identity typeName definition properties =>
      obtain ⟨identity', properties', rfl, -, -⟩ := h
      cases op <;> exact .error _
  | number | boolean =>
      cases h
      cases op <;> first | exact .ok rfl | exact .error _
  | none | text | structureRef | error =>
      cases h
      cases op <;> exact .error _

/-- Only equality looks at identities. -/
theorem binary_of_beq_eq (h : value.Alike pairing value') (h' : other.Alike pairing other')
    (heq : value.beq other = value'.beq other') (interner : Interner) (op : BinaryOp) :
    ResultsAlike pairing (op.apply interner value other) (op.apply interner value' other') := by
  let mismatch (left right : Value) : Fault :=
    .typeMismatch s!"{op.operands} for `{op.symbol}`"
      s!"{left.typeName interner} and {right.typeName interner}"
  have hmismatch :
      ResultsAlike pairing (.error (mismatch value other)) (.error (mismatch value' other')) := by
    simp only [mismatch, h.typeName_eq, h'.typeName_eq]
    exact .error _
  cases op with
  | equal => exact .ok (congrArg Value.boolean heq.symm)
  | notEqual => exact .ok (congrArg (fun b => Value.boolean !b) heq.symm)
  | add | subtract | multiply | divide | less | lessEqual | greater | greaterEqual | and | or =>
      cases value with
      | inst =>
          obtain ⟨_, _, rfl, -, -⟩ := h
          exact hmismatch
      | none | text | number | boolean | structureRef | error =>
          cases h
          cases other with
          | inst =>
              obtain ⟨_, _, rfl, -, -⟩ := h'
              exact hmismatch
          | none | text | number | boolean | structureRef | error =>
              cases h'
              first | exact hmismatch | exact .ok rfl

theorem binary (hpairing : pairing.OneToOne) (h : value.Alike pairing value')
    (h' : other.Alike pairing other') (interner : Interner) (op : BinaryOp) :
    ResultsAlike pairing (op.apply interner value other) (op.apply interner value' other') :=
  h.binary_of_beq_eq h' (h.beq_eq hpairing h') interner op

end Value.Alike

namespace PropertiesAlike

variable {pairing : Pairing} {properties properties' : List (Name × Value)} {value value' : Value}

theorem set (h : PropertiesAlike pairing properties properties')
    (hvalue : value.Alike pairing value') (name : Name) :
    PropertiesAlike pairing (Properties.set properties name value)
      (Properties.set properties' name value') := by
  induction properties generalizing properties' with
  | nil =>
      cases h
      exact ⟨value', [], rfl, hvalue, rfl⟩
  | cons entry rest ih =>
      obtain ⟨other, old⟩ := entry
      obtain ⟨old', rest', rfl, hold, hrest⟩ := h
      simp only [Properties.set]
      by_cases heq : other = name
      · rw [if_pos heq, if_pos heq]
        exact ⟨value', rest', rfl, hvalue, hrest⟩
      · rw [if_neg heq, if_neg heq]
        exact ⟨old', _, rfl, hold, ih hrest⟩

/-- Both have a property, with alike values, or both lack it. -/
theorem get? (h : PropertiesAlike pairing properties properties') (name : Name) :
    (Properties.get? properties name = none ∧ Properties.get? properties' name = none) ∨
      ∃ value value', Properties.get? properties name = some value ∧
        Properties.get? properties' name = some value' ∧ value.Alike pairing value' := by
  induction properties generalizing properties' with
  | nil =>
      cases h
      exact .inl ⟨rfl, rfl⟩
  | cons entry rest ih =>
      obtain ⟨first, value⟩ := entry
      obtain ⟨value', rest', rfl, hvalue, hrest⟩ := h
      simp only [Properties.get?_cons]
      by_cases heq : name = first
      · rw [if_pos heq, if_pos heq]
        exact .inr ⟨value, value', rfl, rfl, hvalue⟩
      · rw [if_neg heq, if_neg heq]
        exact ih hrest

end PropertiesAlike

theorem Source.propertyOf_alike {source : Source} {pairing : Pairing} {subject subject' : Value}
    (h : subject.Alike pairing subject') (member : NodeId) :
    ResultsAlike pairing (source.propertyOf subject member)
      (source.propertyOf subject' member) := by
  simp only [propertyOf]
  cases source.kind member with
  | memberName name =>
      cases subject with
      | inst identity typeName definition properties =>
          obtain ⟨identity', properties', rfl, -, hproperties⟩ := h
          simp only
          rcases hproperties.get? name with ⟨hnone, hnone'⟩ | ⟨value, value', hsome, hsome', hvalue⟩
          · rw [hnone, hnone']
            exact .error _
          · rw [hsome, hsome']
            exact .ok hvalue
      | none | text | number | boolean | structureRef | error =>
          cases h
          exact .error _
  | block | bind | structureDef | property | reference | evaluate | number | text | boolean
  | binary | unary | conditional => exact .error _

end Bindery
