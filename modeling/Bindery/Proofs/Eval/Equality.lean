import Bindery.Eval.Value
import Mathlib

/-!
Equality of values. Floats are equal if they stand for one number, so their equality is symmetric
and transitive, and only a NaN differs from itself. An instance is a reference to what was built
under its identity: values are stored in a registry if every instance in them is there with its
definition and its properties. Among stored values equality is symmetric and transitive as well,
whatever instances they share, and only the bare NaN differs from itself.

A look that ignores identities comes to the same as long as there is no NaN among the properties. A
NaN in an instance is seen by such a look alone.
-/

namespace Bindery

/-- Only a NaN differs from itself. -/
theorem float_beq_self_iff {x : Float} : (x == x) = true ↔ x.isNaN = false := by
  rw [Float.beq_self_iff, Float.isNaN_eq_decide_eq_nan, decide_eq_false_iff_not]

namespace Value

mutual

/-- Equality that looks at what instances hold and not at their identities. -/
def same : Value → Value → Bool
  | .none, .none => true
  | .text a, .text b => a == b
  | .number a, .number b => a == b
  | .boolean a, .boolean b => a == b
  | .structureRef definition name, .structureRef definition' name' =>
    definition == definition' && name == name'
  | .inst _ _ definition properties, .inst _ _ definition' properties' =>
    definition == definition' && propertiesSame properties properties'
  | .error a, .error b => a == b
  | _, _ => false

def propertiesSame : List (Name × Value) → List (Name × Value) → Bool
  | [], [] => true
  | (name, value) :: rest, (name', value') :: rest' =>
    name == name' && same value value' && propertiesSame rest rest'
  | _, _ => false

end

mutual

/-- No number in the value is a NaN, at any depth. -/
def NaNFree : Value → Prop
  | .number x => x.isNaN = false
  | .inst _ _ _ properties => PropertiesNaNFree properties
  | .none | .text _ | .boolean _ | .structureRef _ _ | .error _ => True

def PropertiesNaNFree : List (Name × Value) → Prop
  | [] => True
  | (_, value) :: rest => value.NaNFree ∧ PropertiesNaNFree rest

end

theorem beq_eq (value other : Value) : (value == other) = value.beq other := rfl

end Value

/-- What was built under each identity. -/
abbrev Registry := Identity → Option (NodeId × Properties)

mutual

/-- Every instance in the value is as it was built. -/
def Value.Stored (registry : Registry) : Value → Prop
  | .inst identity _ definition properties =>
    registry identity = some (definition, properties) ∧ PropertiesStored registry properties
  | .none | .text _ | .number _ | .boolean _ | .structureRef _ _ | .error _ => True

def PropertiesStored (registry : Registry) : List (Name × Value) → Prop
  | [] => True
  | (_, value) :: rest => value.Stored registry ∧ PropertiesStored registry rest

end

namespace Value

section Equivalence

variable {registry : Registry}

mutual

theorem beq_comm : ∀ value other : Value, value.beq other = other.beq value
  | .inst identity typeName definition properties, other => by
      cases other with
      | inst identity' typeName' definition' properties' =>
          simp only [beq, propertiesBeq_comm properties properties', Bool.beq_comm (a := identity),
            Bool.beq_comm (a := definition)]
      | none | text | number | boolean | structureRef | error => rfl
  | .number x, other => by
      cases other with
      | number y => exact BEq.comm
      | none | text | boolean | structureRef | inst | error => rfl
  | .none, other | .text _, other | .boolean _, other | .structureRef _ _, other
  | .error _, other => by
      cases other <;> simp only [beq, Bool.beq_comm]

theorem propertiesBeq_comm : ∀ properties others : List (Name × Value),
    propertiesBeq properties others = propertiesBeq others properties
  | [], [] | [], _ :: _ | _ :: _, [] => rfl
  | (name, value) :: rest, (name', value') :: rest' => by
      simp only [propertiesBeq, beq_comm value value', propertiesBeq_comm rest rest',
        Bool.beq_comm (a := name)]

end

/-- Numbers and instances apart, equal values are the same. -/
theorem beq_iff_eq_of_plain {value other : Value} (hnumber : ∀ x, value ≠ .number x)
    (hinst : ∀ identity typeName definition properties,
      value ≠ .inst identity typeName definition properties) :
    value.beq other = true ↔ value = other := by
  cases value with
  | number x => exact absurd rfl (hnumber x)
  | inst => exact absurd rfl (hinst _ _ _ _)
  | none | text | boolean | structureRef | error => cases other <;> simp [beq]

theorem number_beq_iff {x : Float} {other : Value} :
    (number x).beq other = true ↔ ∃ y, other = .number y ∧ (x == y) = true := by
  cases other <;> simp [beq]

theorem inst_beq_iff {identity : Identity} {typeName : Name} {definition : NodeId}
    {properties : Properties} {other : Value} :
    (inst identity typeName definition properties).beq other = true ↔
      ∃ identity' typeName' definition' properties',
        other = .inst identity' typeName' definition' properties' ∧
        (identity = identity' ∨
          definition = definition' ∧ propertiesBeq properties properties' = true) := by
  cases other with
  | inst =>
      simp only [beq, Bool.or_eq_true, Bool.and_eq_true, beq_iff_eq]
      exact ⟨fun h => ⟨_, _, _, _, rfl, h⟩, fun ⟨_, _, _, _, heq, h⟩ => by cases heq; exact h⟩
  | none | text | number | boolean | structureRef | error => simp [beq]

/-- Two stored instances of one identity have the same content. -/
theorem Stored.eq_of_identity {identity : Identity} {typeName typeName' : Name}
    {definition definition' : NodeId} {properties properties' : Properties}
    (h : (inst identity typeName definition properties).Stored registry)
    (h' : (inst identity typeName' definition' properties').Stored registry) :
    definition = definition' ∧ properties = properties' :=
  Prod.mk.inj (Option.some.inj (h.1.symm.trans h'.1))

mutual

theorem beq_trans : ∀ {value other third : Value}, value.Stored registry → other.Stored registry →
    third.Stored registry → value.beq other = true → other.beq third = true →
      value.beq third = true
  | .inst identity typeName definition properties, other, third, h₁, h₂, h₃, h, h' => by
      obtain ⟨identity₂, typeName₂, definition₂, properties₂, rfl, hother⟩ := inst_beq_iff.mp h
      obtain ⟨identity₃, typeName₃, definition₃, properties₃, rfl, hthird⟩ := inst_beq_iff.mp h'
      refine inst_beq_iff.mpr ⟨_, _, _, _, rfl, ?_⟩
      rcases hother with rfl | ⟨rfl, hother⟩
      · obtain ⟨rfl, rfl⟩ := h₁.eq_of_identity h₂
        exact hthird
      rcases hthird with rfl | ⟨rfl, hthird⟩
      · obtain ⟨rfl, rfl⟩ := h₂.eq_of_identity h₃
        exact .inr ⟨rfl, hother⟩
      · exact .inr ⟨rfl, propertiesBeq_trans h₁.2 h₂.2 h₃.2 hother hthird⟩
  | .number x, other, third, _, _, _, h, h' => by
      obtain ⟨y, rfl, hxy⟩ := number_beq_iff.mp h
      obtain ⟨z, rfl, hyz⟩ := number_beq_iff.mp h'
      exact BEq.trans hxy hyz
  | .none, _, _, _, _, _, h, h' | .text _, _, _, _, _, _, h, h' | .boolean _, _, _, _, _, _, h, h'
  | .structureRef _ _, _, _, _, _, _, h, h' | .error _, _, _, _, _, _, h, h' => by
      obtain rfl := (beq_iff_eq_of_plain (by simp) (by simp)).mp h
      exact h'

theorem propertiesBeq_trans : ∀ {properties others thirds : List (Name × Value)},
    PropertiesStored registry properties → PropertiesStored registry others →
      PropertiesStored registry thirds → propertiesBeq properties others = true →
        propertiesBeq others thirds = true → propertiesBeq properties thirds = true
  | [], [], [], _, _, _, _, _ => rfl
  | (_, _) :: _, (_, _) :: _, (_, _) :: _, h₁, h₂, h₃, h, h' => by
      simp only [propertiesBeq, Bool.and_eq_true, beq_iff_eq] at h h' ⊢
      exact ⟨⟨h.1.1.trans h'.1.1, beq_trans h₁.1 h₂.1 h₃.1 h.1.2 h'.1.2⟩,
        propertiesBeq_trans h₁.2 h₂.2 h₃.2 h.2 h'.2⟩

end

/-- Every value but the bare NaN equals its copies. -/
theorem beq_self_iff {value : Value} :
    value.beq value = true ↔ ∀ x, value = .number x → x.isNaN = false := by
  cases value with
  | number x => simp [beq]
  | none | text | boolean | structureRef | inst | error => simp [beq]

/-- Equality is symmetric and transitive among stored values, and only the bare NaN differs from its
copies. -/
theorem beq_partial_equivalence {value other third : Value} (hvalue : value.Stored registry)
    (hother : other.Stored registry) (hthird : third.Stored registry) :
    ((value == other) = true → (other == value) = true) ∧
      ((value == other) = true → (other == third) = true → (value == third) = true) ∧
      ((value == value) = true ↔ ∀ x, value = .number x → x.isNaN = false) :=
  ⟨fun h => (beq_comm other value).trans h, beq_trans hvalue hother hthird, beq_self_iff⟩

/-- Three instances that share one, which holds a NaN, and their registry. -/
theorem beq_partial_equivalence_of_shared :
    ∃ (registry : Registry) (value other third : Value),
      value.Stored registry ∧ other.Stored registry ∧ third.Stored registry ∧
      (value == other) = true ∧ (other == third) = true ∧ (value == third) = true ∧
      (value == value) = true ∧ value.same value = false := by
  have hnan : (Float.ofBits 0x7ff8000000000000).isNaN = true := by decide
  let shared : Properties := [(⟨1⟩, .number (Float.ofBits 0x7ff8000000000000))]
  let held : Properties := [(⟨2⟩, .inst ⟨0, 0⟩ ⟨3⟩ ⟨4⟩ shared)]
  let registry : Registry := fun identity =>
    if identity.serial = 0 then some (⟨4⟩, shared) else some (⟨5⟩, held)
  have hstored (serial : Nat) (hserial : serial ≠ 0) :
      (inst ⟨0, serial⟩ ⟨6⟩ ⟨5⟩ held).Stored registry :=
    ⟨if_neg hserial, ⟨if_pos rfl, trivial, trivial⟩, trivial⟩
  obtain ⟨-, htrans, hself⟩ := beq_partial_equivalence (hstored 1 (by decide))
    (hstored 2 (by decide)) (hstored 3 (by decide))
  exact ⟨registry, inst ⟨0, 1⟩ ⟨6⟩ ⟨5⟩ held, inst ⟨0, 2⟩ ⟨6⟩ ⟨5⟩ held, inst ⟨0, 3⟩ ⟨6⟩ ⟨5⟩ held,
    hstored 1 (by decide), hstored 2 (by decide), hstored 3 (by decide), by decide, by decide,
    htrans (by decide) (by decide), hself.mpr (fun _ h => by cases h), by decide⟩

end Equivalence

section Sameness

variable {registry : Registry}

mutual

theorem same_self_iff : ∀ {value : Value}, value.same value = true ↔ value.NaNFree
  | .inst _ _ definition properties => by
      simp only [same, NaNFree, beq_self_eq_true, Bool.true_and, propertiesSame_self_iff]
  | .number _ => float_beq_self_iff
  | .none | .text _ | .boolean _ | .structureRef _ _ | .error _ => by simp [same, NaNFree]

theorem propertiesSame_self_iff : ∀ {properties : List (Name × Value)},
    propertiesSame properties properties = true ↔ PropertiesNaNFree properties
  | [] => by simp [propertiesSame, PropertiesNaNFree]
  | (_, _) :: _ => by
      simp only [propertiesSame, PropertiesNaNFree, beq_self_eq_true, Bool.true_and,
        Bool.and_eq_true, same_self_iff, propertiesSame_self_iff]

end

mutual

/-- Values that look the same are equal. -/
theorem beq_of_same : ∀ {value other : Value}, value.same other = true → value.beq other = true
  | .inst .., other, h => by
      cases other with
      | inst =>
          simp only [same, Bool.and_eq_true, beq_iff_eq] at h
          exact inst_beq_iff.mpr ⟨_, _, _, _, rfl, .inr ⟨h.1, propertiesBeq_of_same h.2⟩⟩
      | none | text | number | boolean | structureRef | error => cases h
  | .none, other, h | .text _, other, h | .number _, other, h | .boolean _, other, h
  | .structureRef _ _, other, h | .error _, other, h => by
      cases other <;> exact h

theorem propertiesBeq_of_same : ∀ {properties others : List (Name × Value)},
    propertiesSame properties others = true → propertiesBeq properties others = true
  | [], [], _ => rfl
  | (_, _) :: _, (_, _) :: _, h => by
      simp only [propertiesSame, propertiesBeq, Bool.and_eq_true] at h ⊢
      exact ⟨⟨h.1.1, beq_of_same h.1.2⟩, propertiesBeq_of_same h.2⟩

end

mutual

theorem nanFree_of_same : ∀ {value other : Value}, value.same other = true → value.NaNFree
  | .inst .., other, h => by
      cases other with
      | inst =>
          simp only [same, Bool.and_eq_true] at h
          exact propertiesNaNFree_of_same h.2
      | none | text | number | boolean | structureRef | error => cases h
  | .number x, other, h => by
      cases other with
      | number y => exact float_beq_self_iff.mp (BEq.trans h (BEq.symm h))
      | none | text | boolean | structureRef | inst | error => cases h
  | .none, _, _ | .text _, _, _ | .boolean _, _, _ | .structureRef _ _, _, _ | .error _, _, _ =>
      trivial

theorem propertiesNaNFree_of_same : ∀ {properties others : List (Name × Value)},
    propertiesSame properties others = true → PropertiesNaNFree properties
  | [], _, _ => trivial
  | (_, _) :: _, (_, _) :: _, h => by
      simp only [propertiesSame, Bool.and_eq_true] at h
      exact ⟨nanFree_of_same h.1.2, propertiesNaNFree_of_same h.2⟩

end

mutual

/-- Where there is no NaN, equal values look the same. -/
theorem NaNFree.same_of_beq : ∀ {value other : Value}, value.NaNFree → value.Stored registry →
    other.Stored registry → value.beq other = true → value.same other = true
  | .inst _ _ definition properties, other, hfree, h₁, h₂, h => by
      obtain ⟨identity', typeName', definition', properties', rfl, hother⟩ := inst_beq_iff.mp h
      simp only [same, Bool.and_eq_true, beq_iff_eq]
      rcases hother with rfl | ⟨hdefinition, hproperties⟩
      · obtain ⟨rfl, rfl⟩ := h₁.eq_of_identity h₂
        exact ⟨rfl, propertiesSame_self_iff.mpr hfree⟩
      · exact ⟨hdefinition, PropertiesNaNFree.same_of_beq hfree h₁.2 h₂.2 hproperties⟩
  | .none, other, _, _, _, h | .text _, other, _, _, _, h | .number _, other, _, _, _, h
  | .boolean _, other, _, _, _, h | .structureRef _ _, other, _, _, _, h
  | .error _, other, _, _, _, h => by
      cases other <;> exact h

theorem PropertiesNaNFree.same_of_beq : ∀ {properties others : List (Name × Value)},
    PropertiesNaNFree properties → PropertiesStored registry properties →
      PropertiesStored registry others → propertiesBeq properties others = true →
        propertiesSame properties others = true
  | [], [], _, _, _, _ => rfl
  | (_, _) :: _, (_, _) :: _, hfree, h₁, h₂, h => by
      simp only [propertiesSame, propertiesBeq, Bool.and_eq_true] at h ⊢
      exact ⟨⟨h.1.1, NaNFree.same_of_beq hfree.1 h₁.1 h₂.1 h.1.2⟩,
        PropertiesNaNFree.same_of_beq hfree.2 h₁.2 h₂.2 h.2⟩

end

/-- A look at what instances hold tells equal values apart if and only if they hold a NaN. -/
theorem Stored.beq_eq_same_iff {value other : Value} (h : value.Stored registry)
    (h' : other.Stored registry) :
    value.beq other = value.same other ↔ (value.beq other = true → value.NaNFree) := by
  constructor
  · intro heq hbeq
    exact nanFree_of_same (heq.symm.trans hbeq)
  · intro hfree
    rw [Bool.eq_iff_iff]
    exact ⟨fun hbeq => (hfree hbeq).same_of_beq h h' hbeq, beq_of_same⟩

/-- The properties of an instance equal themselves, one by one, unless one of them is a NaN. What
stands deeper does not matter: it is equal as part of an instance. -/
theorem propertiesBeq_self_iff {properties : Properties} :
    propertiesBeq properties properties = true ↔
      ∀ entry ∈ properties, ∀ x, entry.2 = .number x → x.isNaN = false := by
  induction properties with
  | nil => simp [propertiesBeq]
  | cons entry rest ih => simp [propertiesBeq, ih, beq_self_iff]

/-- The identities of stored instances decide on nothing but a NaN that is a property of both. -/
theorem Stored.inst_beq_eq_iff {identity identity' : Identity} {typeName typeName' : Name}
    {definition definition' : NodeId} {properties properties' : Properties}
    (h : (inst identity typeName definition properties).Stored registry)
    (h' : (inst identity' typeName' definition' properties').Stored registry) :
    (inst identity typeName definition properties).beq
        (inst identity' typeName' definition' properties') =
      (definition == definition' && propertiesBeq properties properties') ↔
    (identity = identity' →
      ∀ entry ∈ properties, ∀ x, entry.2 = .number x → x.isNaN = false) := by
  by_cases heq : identity = identity'
  · subst heq
    obtain ⟨rfl, rfl⟩ := h.eq_of_identity h'
    simp [beq, propertiesBeq_self_iff]
  · simp [beq, heq]

end Sameness

end Value
end Bindery
