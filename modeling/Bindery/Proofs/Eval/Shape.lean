import Bindery.Proofs.Eval.Discipline
import Bindery.Proofs.Eval.Properties

/-!
The shape of values. An instance has the properties that its definition tells: a property for each
name among the inputs and the binds of the body, in the order in which the names come first, with a
value that the last bind of the name accepts. A reference to a structure refers to one of that name.
Errors are no values. Whatever is held in frames or kept on demand is so, and is accepted by the
bind that it is held for, and evaluation keeps it so.
-/

namespace Bindery

namespace Properties

theorem mem_set {properties : Properties} {name : Name} {value : Value} {entry : Name × Value}
    (h : entry ∈ properties.set name value) : entry = (name, value) ∨ entry ∈ properties := by
  induction properties with
  | nil => exact .inl (List.mem_singleton.mp h)
  | cons first rest ih =>
      obtain ⟨other, old⟩ := first
      simp only [set] at h
      by_cases heq : other = name
      · rw [if_pos heq] at h
        exact (List.mem_cons.mp h).imp id (List.mem_cons_of_mem _)
      · rw [if_neg heq] at h
        rcases List.mem_cons.mp h with rfl | h
        · exact .inr List.mem_cons_self
        · exact (ih h).imp id (List.mem_cons_of_mem _)

theorem ofBinds_eq_ofSets (bound : List (BindNode × Value)) :
    ofBinds bound = ofSets (bound.map fun entry => (entry.1.name, entry.2)) := by
  rw [ofBinds, ofSets, List.foldl_map]

/-- Properties are named in the order in which their names come first among the binds. -/
theorem map_fst_ofBinds (bound : List (BindNode × Value)) :
    (ofBinds bound).map Prod.fst = (bound.map (·.1.name)).eraseDups := by
  rw [ofBinds_eq_ofSets, map_fst_ofSets, List.map_map]
  rfl

/-- The last bind of a name tells the property. -/
theorem get?_ofBinds (before after : List (BindNode × Value)) (bind : BindNode) (value : Value)
    (hafter : ∀ entry ∈ after, entry.1.name ≠ bind.name) :
    (ofBinds (before ++ (bind, value) :: after)).get? bind.name = some value := by
  rw [ofBinds_eq_ofSets, List.map_append, List.map_cons]
  refine (get?_ofSets_eq_some_iff _ _ _).mpr ⟨_, _, rfl, fun hmem => ?_⟩
  rw [List.map_map] at hmem
  obtain ⟨entry, hentry, heq⟩ := List.mem_map.mp hmem
  exact hafter entry hentry heq

theorem mem_ofBinds {bound : List (BindNode × Value)} {entry : Name × Value}
    (h : entry ∈ ofBinds bound) : ∃ bind, (bind, entry.2) ∈ bound := by
  induction bound using List.reverseRecOn with
  | nil => cases h
  | append_singleton bound last ih =>
      rw [ofBinds_append_singleton] at h
      rcases mem_set h with rfl | h
      · exact ⟨last.1, List.mem_append_right _ List.mem_cons_self⟩
      · obtain ⟨bind, hbind⟩ := ih h
        exact ⟨bind, List.mem_append_left _ hbind⟩

/-- The properties are those of the given binds: a property for each of their names, the names in
the order in which they come first, and each property with a value of the last bind of its name. -/
def Hold (binds : List BindNode) (properties : Properties) : Prop :=
  properties.map Prod.fst = (binds.map (·.name)).eraseDups ∧
  ∃ bound : List (BindNode × Value), bound.map Prod.fst = binds ∧
    (∀ entry ∈ bound, entry.1.Accepts entry.2) ∧
    ∀ before bind value after, bound = before ++ (bind, value) :: after →
      (∀ entry ∈ after, entry.1.name ≠ bind.name) → properties.get? bind.name = some value

theorem hold_ofBinds {binds : List BindNode} {bound : List (BindNode × Value)}
    (hbinds : bound.map Prod.fst = binds) (haccepts : ∀ entry ∈ bound, entry.1.Accepts entry.2) :
    Hold binds (ofBinds bound) := by
  refine ⟨?_, bound, hbinds, haccepts, fun before bind value after heq hafter => ?_⟩
  · rw [map_fst_ofBinds, ← hbinds, List.map_map]
    rfl
  · rw [heq]
    exact get?_ofBinds before after bind value hafter

theorem mem_of_get?_eq_some {properties : Properties} {name : Name} {value : Value}
    (h : properties.get? name = some value) : (name, value) ∈ properties := by
  induction properties with
  | nil => cases h
  | cons entry rest ih =>
      obtain ⟨first, old⟩ := entry
      rw [get?_cons] at h
      split at h
      · rename_i heq
        cases h
        exact heq ▸ List.mem_cons_self
      · exact List.mem_cons_of_mem _ (ih h)

/-- A name has a property if it is the name of one of the binds. -/
theorem Hold.get?_eq_none_iff {binds : List BindNode} {properties : Properties}
    (h : Hold binds properties) (name : Name) :
    properties.get? name = none ↔ ∀ bind ∈ binds, bind.name ≠ name := by
  rw [Properties.get?_eq_none_iff, h.1, List.mem_eraseDups, List.mem_map]
  refine ⟨fun hnot bind hbind heq => hnot ⟨bind, hbind, heq⟩, fun hne hmem => ?_⟩
  obtain ⟨bind, hbind, heq⟩ := hmem
  exact hne bind hbind heq

end Properties

mutual

/-- The value is no error, refers only to structures of the given names, and has in its instances,
at any depth, the properties that their definitions tell. -/
def Value.Shaped (source : Source) : Value → Prop
  | .inst _ typeName id properties =>
    (∃ definition, source.structure? id = some definition ∧ definition.name = typeName ∧
      Properties.Hold (source.propertyBinds definition) properties) ∧
    PropertiesShaped source properties
  | .structureRef id name =>
    ∃ definition, source.structure? id = some definition ∧ definition.name = name
  | .error _ => False
  | .none | .text _ | .number _ | .boolean _ => True

def PropertiesShaped (source : Source) : List (Name × Value) → Prop
  | [] => True
  | (_, value) :: rest => value.Shaped source ∧ PropertiesShaped source rest

end

theorem propertiesShaped_iff {source : Source} {properties : List (Name × Value)} :
    PropertiesShaped source properties ↔ ∀ entry ∈ properties, entry.2.Shaped source := by
  induction properties with
  | nil => simp [PropertiesShaped]
  | cons entry rest ih => simp [PropertiesShaped, ih]

/-- All that is held in frames or kept on demand is in shape, and accepted by the binds that it is
held for. -/
def Source.InOrder (source : Source) (context : Context) : Prop :=
  context.HoldsOnly fun bind value => value.Shaped source ∧ source.Accepts bind value

namespace Source

variable {source : Source}

theorem shaped_of_build {id : NodeId} {definition : StructureNode} {identity : Identity}
    {bound : List (BindNode × Value)} (hstructure : source.structure? id = some definition)
    (hbinds : bound.map Prod.fst = source.propertyBinds definition)
    (hbound : ∀ entry ∈ bound, entry.2.Shaped source ∧ entry.1.Accepts entry.2) :
    (Value.inst identity definition.name id (Properties.ofBinds bound)).Shaped source := by
  refine ⟨⟨definition, hstructure, rfl,
    Properties.hold_ofBinds hbinds fun entry hentry => (hbound entry hentry).2⟩,
    propertiesShaped_iff.mpr fun entry hentry => ?_⟩
  obtain ⟨bind, hbind⟩ := Properties.mem_ofBinds hentry
  exact (hbound _ hbind).1

/-- Contexts in order under a depth limit; all overflows are of this limit. -/
def shapes (source : Source) (limit : Nat) : Discipline source Unit where
  le _ _ := True
  holds _ context := source.InOrder context ∧ context.maxDepth = limit
  good _ value := value.Shaped source
  admits fault := ∀ other, fault = .stackOverflow other → other = limit
  le_refl _ := trivial
  le_trans _ _ := trivial
  good_mono _ h := h
  good_none _ := trivial
  good_text _ _ := trivial
  good_boolean _ _ := trivial
  good_structureRef _ {_ definition} hkind :=
    ⟨definition, by simp only [structure?, hkind], rfl⟩
  good_property h hget := propertiesShaped_iff.mp h.2 _ (Properties.mem_of_get?_eq_some hget)
  lookup? h hlookup := (h.1.lookup? hlookup).1
  record {_ context bind value} h hshaped haccepts := by
    refine ⟨h.1.record ⟨hshaped, haccepts⟩, ?_⟩
    rw [← h.2, Context.record]
    split <;> rfl
  keep h hshaped haccepts := ⟨h.1.keep ⟨hshaped, haccepts⟩, h.2⟩
  enter h henter := by
    refine ⟨h.1.enter henter, ?_⟩
    obtain ⟨-, rfl⟩ := Context.enter_eq_ok.mp henter
    exact h.2
  leave h := ⟨h.1.leave, h.2⟩
  build h hstructure hbinds hbound :=
    ⟨(), trivial, ⟨⟨h.1.frames, h.1.demanded⟩, h.2⟩, shaped_of_build hstructure hbinds hbound⟩
  fail hne other heq := absurd heq (hne other)
  overflow h other heq := by
    cases heq
    exact h.2

theorem governs_shapes (hsource : source.WellFormed) (limit steps : Nat) :
    (source.shapes limit).Governs (source.eval steps) :=
  Discipline.governs_eval hsource (fun _ _ _ => trivial) steps

end Source
end Bindery
