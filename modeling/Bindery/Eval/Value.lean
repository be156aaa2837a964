import Bindery.Eval.Error
import Bindery.Number.Decimal
import Bindery.Text.Quoted
import Bindery.Tree.Arena

/-!
Values. An instance of a structure is its definition and an ordered list of properties, together
with an identity that every copy of it shares and no other construction has.

Equality is structural. Instances of one identity are equal without a look at their properties;
others are equal if they come from the same definition and hold equal properties in the same order.
The two agree except where a property holds a NaN, which differs from itself.
-/

namespace Bindery

/-- What sets an instance apart from every other construction: whose construction it was, and how
many instances had been built there before. -/
structure Identity where
  owner : Nat
  serial : Nat
  deriving DecidableEq

inductive Value where
  | none
  | text (s : String)
  | number (x : Float)
  | boolean (b : Bool)
  /-- A structure definition as a value, under the name by which it was referred to. -/
  | structureRef (definition : NodeId) (name : Name)
  | inst (identity : Identity) (typeName : Name) (definition : NodeId)
      (properties : List (Name × Value))
  | error (e : EvalError)

instance : Inhabited Value := ⟨.none⟩

/-- The properties of an instance in the order in which they were first set. -/
abbrev Properties := List (Name × Value)

namespace Properties

def get? (properties : Properties) (name : Name) : Option Value := properties.lookup name

/-- Sets a property. A name that is already there keeps its place and takes the new value. -/
def set (properties : Properties) (name : Name) (value : Value) : Properties :=
  match properties with
  | [] => [(name, value)]
  | (other, old) :: rest =>
    if other = name then (name, value) :: rest else (other, old) :: Properties.set rest name value

theorem get?_cons (first : Name) (old : Value) (rest : Properties) (name : Name) :
    get? ((first, old) :: rest) name = if name = first then some old else get? rest name := by
  by_cases h : name = first
  · simp [get?, h]
  · simp [get?, List.lookup_cons, beq_false_of_ne h, h]

theorem get?_set (properties : Properties) (name other : Name) (value : Value) :
    (properties.set name value).get? other =
      if other = name then some value else properties.get? other := by
  induction properties with
  | nil => simp only [set, get?_cons]
  | cons entry rest ih =>
    simp only [set]
    split <;> grind [get?_cons]

end Properties

namespace Value

mutual

def beq : Value → Value → Bool
  | .none, .none => true
  | .text a, .text b => a == b
  | .number a, .number b => a == b
  | .boolean a, .boolean b => a == b
  | .structureRef definition name, .structureRef definition' name' =>
    definition == definition' && name == name'
  | .inst identity _ definition properties, .inst identity' _ definition' properties' =>
    identity == identity' || (definition == definition' && propertiesBeq properties properties')
  | .error a, .error b => a == b
  | _, _ => false

def propertiesBeq : List (Name × Value) → List (Name × Value) → Bool
  | [], [] => true
  | (name, value) :: rest, (name', value') :: rest' =>
    name == name' && beq value value' && propertiesBeq rest rest'
  | _, _ => false

end

instance : BEq Value := ⟨beq⟩

/-- The type of a value as messages name it. -/
def typeName (interner : Interner) : Value → String
  | .none => "none"
  | .text _ => "text"
  | .number _ => "number"
  | .boolean _ => "boolean"
  | .structureRef _ name => s!"structure `{interner.lookup name}`"
  | .inst _ name _ _ => interner.lookup name
  | .error _ => "error"

def conforms : DeclaredType → Value → Bool
  | .text, .text _ | .number, .number _ | .boolean, .boolean _ => true
  | .named name, .inst _ typeName _ _ => typeName == name
  | _, _ => false

mutual

def display (interner : Interner) : Value → String
  | .none => "none"
  | .text s => Text.quote s
  | .number x => Decimal.text x.toBits
  | .boolean b => toString b
  | .structureRef _ name => "•" ++ interner.lookup name
  | .inst _ name _ properties =>
    interner.lookup name ++ "(" ++ ", ".intercalate (displayProperties interner properties) ++ ")"
  | .error e => e.text

def displayProperties (interner : Interner) : List (Name × Value) → List String
  | [] => []
  | (name, value) :: rest =>
    (interner.lookup name ++ ": " ++ display interner value) :: displayProperties interner rest

end

def isError : Value → Bool
  | .error _ => true
  | _ => false

def asText? : Value → Option String
  | .text s => some s
  | _ => Option.none

theorem eq_text_of_asText? {value : Value} {s : String} (h : value.asText? = some s) :
    value = .text s := by
  cases value with
  | text => exact congrArg text (Option.some.inj h)
  | none | number | boolean | structureRef | inst | error => cases h

def asNumber? : Value → Option Float
  | .number x => some x
  | _ => Option.none

def asError? : Value → Option EvalError
  | .error e => some e
  | _ => Option.none

def properties? : Value → Option Properties
  | .inst _ _ _ properties => some properties
  | _ => Option.none

end Value

def DeclaredType.describe (interner : Interner) : DeclaredType → String
  | .text => "text"
  | .number => "number"
  | .boolean => "boolean"
  | .named name => interner.lookup name

end Bindery
