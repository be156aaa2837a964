import Bindery.Eval.Value
import Bindery.Positions

/-!
Building instances. The properties of an instance are set one after the other, and beside them is
kept where each of them stands, so that a property is found without a search.
-/

namespace Bindery

/-- Properties in the order in which they were first set, and where each of them stands. -/
structure PropertyTable where
  entries : Array (Name × Value)
  positions : Positions Name
  locates : positions.Locates (entries.toList.map Prod.fst)

namespace PropertyTable

variable {table : PropertyTable} {name : Name} {position : Nat}

def empty : PropertyTable := ⟨#[], [], Positions.locates_nil⟩

theorem lt_size (h : table.positions.lookup name = some position) :
    position < table.entries.size := by
  have hlt := table.locates.lt_length h
  rwa [List.length_map, Array.length_toList] at hlt

/-- A new value under the name that is there leaves all names where they stand. -/
theorem map_fst_set (entries : Array (Name × Value)) (position : Nat)
    (h : position < entries.size) (value : Value) :
    (entries.set position (entries[position].1, value)).toList.map Prod.fst =
      entries.toList.map Prod.fst := by
  refine List.ext_getElem (by simp) fun i _ _ => ?_
  by_cases heq : position = i
  · subst heq
    simp
  · simp [heq]

def get? (table : PropertyTable) (name : Name) : Option Value :=
  match h : table.positions.lookup name with
  | some position =>
    have := lt_size h
    some table.entries[position].2
  | none => none

/-- Sets a property. A name that is already there keeps its place and takes the new value. -/
def set (table : PropertyTable) (name : Name) (value : Value) : PropertyTable :=
  match h : table.positions.lookup name with
  | some position =>
    have hlt := lt_size h
    { entries := table.entries.set position (table.entries[position].1, value)
      positions := table.positions
      locates := by rw [map_fst_set]; exact table.locates }
  | none =>
    { entries := table.entries.push (name, value)
      positions := (name, table.entries.size) :: table.positions
      locates := by
        have hlocates := table.locates.concat h
        rw [List.length_map, Array.length_toList] at hlocates
        rwa [Array.toList_push, List.map_append] }

end PropertyTable

/-- A built instance. Its properties are not set any more. -/
structure StructureInstance where
  identity : Identity
  typeName : Name
  definition : NodeId
  table : PropertyTable

namespace StructureInstance

def get? (built : StructureInstance) (name : Name) : Option Value := built.table.get? name

def properties (built : StructureInstance) : Properties := built.table.entries.toList

def toValue (built : StructureInstance) : Value :=
  .inst built.identity built.typeName built.definition built.properties

end StructureInstance

/-- An instance that is being built. -/
structure InstanceBuilder where
  typeName : Name
  definition : NodeId
  table : PropertyTable

namespace InstanceBuilder

def new (typeName : Name) (definition : NodeId) : InstanceBuilder := ⟨typeName, definition, .empty⟩

def set (builder : InstanceBuilder) (name : Name) (value : Value) : InstanceBuilder :=
  { builder with table := builder.table.set name value }

def setAll (builder : InstanceBuilder) (sets : List (Name × Value)) : InstanceBuilder :=
  sets.foldl (fun builder entry => builder.set entry.1 entry.2) builder

def finish (builder : InstanceBuilder) (identity : Identity) : StructureInstance :=
  ⟨identity, builder.typeName, builder.definition, builder.table⟩

end InstanceBuilder
end Bindery
