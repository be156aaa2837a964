import Mathlib.Data.List.Induction
import Bindery.Eval.Builder

/-!
Properties that are set one after the other. Each name keeps the place at which it came first and
has the value that it was given last, and a builder that knows the places finds what a search
through the properties finds.
-/

namespace Bindery

namespace Properties

variable {properties : Properties} {name : Name} {value : Value} {position : Nat}

theorem map_fst_set (properties : Properties) (name : Name) (value : Value) :
    (properties.set name value).map Prod.fst =
      if name ∈ properties.map Prod.fst then properties.map Prod.fst
      else properties.map Prod.fst ++ [name] := by
  induction properties with
  | nil => rfl
  | cons entry rest ih =>
      obtain ⟨other, old⟩ := entry
      simp only [set, List.map_cons, List.mem_cons]
      by_cases heq : other = name
      · simp only [heq, if_true, List.map_cons, true_or]
      · have hne : ¬ name = other := fun h => heq h.symm
        simp only [heq, if_false, List.map_cons, ih, hne, false_or]
        split <;> rfl

theorem get?_eq_none_iff : properties.get? name = none ↔ name ∉ properties.map Prod.fst := by
  rw [get?, List.lookup_eq_none_iff, List.mem_map]
  refine ⟨fun hne hmem => ?_, fun hnot entry hentry => ?_⟩
  · obtain ⟨entry, hentry, heq⟩ := hmem
    exact absurd heq.symm (bne_iff_ne.mp (hne entry hentry))
  · exact bne_iff_ne.mpr fun heq => hnot ⟨entry, hentry, heq.symm⟩

theorem get?_eq_find? (properties : Properties) (name : Name) :
    properties.get? name = (properties.find? (·.1 == name)).map Prod.snd := by
  induction properties with
  | nil => rfl
  | cons entry rest ih =>
      obtain ⟨first, old⟩ := entry
      rw [get?_cons, ih, List.find?_cons]
      by_cases heq : name = first
      · simp [heq]
      · simp [heq, beq_false_of_ne (Ne.symm heq)]

theorem get?_of_mem (hnodup : (properties.map Prod.fst).Nodup) (hmem : (name, value) ∈ properties) :
    properties.get? name = some value := by
  induction properties with
  | nil => cases hmem
  | cons entry rest ih =>
      obtain ⟨first, old⟩ := entry
      rw [List.map_cons, List.nodup_cons] at hnodup
      rw [get?_cons]
      rcases List.mem_cons.mp hmem with heq | hrest
      · cases heq
        rw [if_pos rfl]
      · have hne : name ≠ first := fun h => hnodup.1 (h ▸ List.mem_map.mpr ⟨_, hrest, rfl⟩)
        rw [if_neg hne, ih hnodup.2 hrest]

/-- A new name comes last. -/
theorem set_eq_append (hnew : name ∉ properties.map Prod.fst) (value : Value) :
    properties.set name value = properties ++ [(name, value)] := by
  induction properties with
  | nil => rfl
  | cons entry rest ih =>
      obtain ⟨first, old⟩ := entry
      rw [List.map_cons, List.mem_cons, not_or] at hnew
      rw [set, if_neg (Ne.symm hnew.1), ih hnew.2, List.cons_append]

/-- Where no name comes twice, only the property of the name changes. -/
theorem set_eq_map (hnodup : (properties.map Prod.fst).Nodup)
    (hold : name ∈ properties.map Prod.fst) (value : Value) :
    properties.set name value =
      properties.map fun entry => if entry.1 = name then (name, value) else entry := by
  induction properties with
  | nil => cases hold
  | cons entry rest ih =>
      obtain ⟨first, old⟩ := entry
      rw [List.map_cons, List.nodup_cons] at hnodup
      rw [set, List.map_cons]
      by_cases heq : first = name
      · subst heq
        rw [if_pos rfl, if_pos rfl]
        congr 1
        refine (List.map_id' rest).symm.trans (List.map_congr_left fun other hother => ?_)
        have hne : other.1 ≠ first := fun h => hnodup.1 (List.mem_map.mpr ⟨other, hother, h⟩)
        rw [if_neg hne]
      · have hmem := (List.mem_cons.mp hold).resolve_left (Ne.symm heq)
        rw [if_neg heq, if_neg heq, ih hnodup.2 hmem]

/-- The properties after all of these were set, in this order. -/
def ofSets (sets : List (Name × Value)) : Properties :=
  sets.foldl (fun properties entry => properties.set entry.1 entry.2) []

theorem ofSets_concat (sets : List (Name × Value)) (name : Name) (value : Value) :
    ofSets (sets ++ [(name, value)]) = (ofSets sets).set name value := by
  simp only [ofSets, List.foldl_append, List.foldl_cons, List.foldl_nil]

/-- Names stand in the order in which they were first set. -/
theorem map_fst_ofSets (sets : List (Name × Value)) :
    (ofSets sets).map Prod.fst = (sets.map Prod.fst).eraseDups := by
  induction sets using List.reverseRecOn with
  | nil => rfl
  | append_singleton sets entry ih =>
      obtain ⟨name, value⟩ := entry
      simp only [ofSets_concat, map_fst_set, ih, List.mem_eraseDups, List.map_append, List.map_cons,
        List.map_nil, eraseDups_concat]

/-- A name has the value that it was set to last. -/
theorem get?_ofSets_eq_some_iff (sets : List (Name × Value)) (name : Name) (value : Value) :
    (ofSets sets).get? name = some value ↔
      ∃ before after, sets = before ++ (name, value) :: after ∧ name ∉ after.map Prod.fst := by
  induction sets using List.reverseRecOn with
  | nil =>
      refine iff_of_false (fun h => by cases h) ?_
      rintro ⟨before, after, heq, -⟩
      cases before <;> cases heq
  | append_singleton sets entry ih =>
      obtain ⟨last, given⟩ := entry
      rw [ofSets_concat, get?_set]
      constructor
      · intro h
        split at h
        · rename_i heq
          cases h
          exact ⟨sets, [], by rw [heq], List.not_mem_nil⟩
        · rename_i hne
          obtain ⟨before, after, rfl, hafter⟩ := ih.mp h
          refine ⟨before, after ++ [(last, given)], by simp, ?_⟩
          rw [List.map_append, List.mem_append, List.map_singleton, List.mem_singleton]
          exact not_or.mpr ⟨hafter, hne⟩
      · rintro ⟨before, after, heq, hafter⟩
        rcases List.eq_nil_or_concat after with rfl | ⟨after, entry, rfl⟩
        · obtain ⟨-, hlast⟩ := List.append_inj' heq rfl
          cases hlast
          rw [if_pos rfl]
        · rw [List.concat_eq_append] at heq hafter
          rw [← List.cons_append, ← List.append_assoc] at heq
          obtain ⟨rfl, hlast⟩ := List.append_inj' heq rfl
          cases hlast
          rw [List.map_append, List.mem_append, not_or] at hafter
          have hne : name ≠ last := fun h => hafter.2 (List.mem_singleton.mpr h)
          rw [if_neg hne]
          exact ih.mpr ⟨before, after, rfl, hafter.1⟩

end Properties

namespace PropertyTable

variable {table : PropertyTable} {name : Name} {position : Nat}

/-- Every name is known by the place of its property, and nothing else is known. -/
theorem lookup_eq_some_iff : table.positions.lookup name = some position ↔
    ∃ h : position < table.entries.size, table.entries[position].1 = name := by
  rw [table.locates, List.getElem?_map, Array.getElem?_toList, Option.map_eq_some_iff]
  constructor
  · rintro ⟨entry, hentry, hname⟩
    obtain ⟨hlt, rfl⟩ := Array.getElem?_eq_some_iff.mp hentry
    exact ⟨hlt, hname⟩
  · rintro ⟨hlt, hname⟩
    exact ⟨_, Array.getElem?_eq_getElem hlt, hname⟩

/-- The table finds what a search finds. -/
theorem get?_eq (table : PropertyTable) (name : Name) :
    table.get? name = Properties.get? table.entries.toList name := by
  rw [get?]
  split
  · rename_i position h
    obtain ⟨hlt, hname⟩ := lookup_eq_some_iff.mp h
    have hmem : (name, table.entries[position].2) ∈ table.entries.toList :=
      hname ▸ Array.getElem_mem_toList hlt
    exact (Properties.get?_of_mem table.locates.nodup hmem).symm
  · rename_i h
    exact (Properties.get?_eq_none_iff.mpr (table.locates.lookup_eq_none_iff.mp h)).symm

/-- A table is set as its properties are. -/
theorem toList_set (table : PropertyTable) (name : Name) (value : Value) :
    (table.set name value).entries.toList = Properties.set table.entries.toList name value := by
  rw [set]
  split
  · rename_i position h
    have hold : name ∈ table.entries.toList.map Prod.fst := by
      by_contra hnew
      rw [table.locates.lookup_eq_none_iff.mpr hnew] at h
      cases h
    rw [Properties.set_eq_map table.locates.nodup hold]
    obtain ⟨hlt, hname⟩ := lookup_eq_some_iff.mp h
    refine List.ext_getElem (by simp) fun i hi _ => ?_
    have hi' : i < table.entries.size := by simpa using hi
    -- the name stands at its position only
    have hat : table.entries[i].1 = name ↔ position = i := by
      constructor
      · intro heq
        exact Option.some.inj (h.symm.trans (lookup_eq_some_iff.mpr ⟨hi', heq⟩))
      · rintro rfl
        exact hname
    simp only [Array.toList_set, List.getElem_set, Array.getElem_toList, List.getElem_map, hat,
      hname]
  · rename_i h
    rw [Properties.set_eq_append (table.locates.lookup_eq_none_iff.mp h), Array.toList_push]

end PropertyTable

namespace InstanceBuilder

variable (builder : InstanceBuilder) (sets : List (Name × Value))

theorem setAll_concat (name : Name) (value : Value) :
    builder.setAll (sets ++ [(name, value)]) = (builder.setAll sets).set name value := by
  simp only [setAll, List.foldl_append, List.foldl_cons, List.foldl_nil]

theorem typeName_setAll : (builder.setAll sets).typeName = builder.typeName := by
  induction sets using List.reverseRecOn with
  | nil => rfl
  | append_singleton sets entry ih => rw [setAll_concat, set, ih]

theorem definition_setAll : (builder.setAll sets).definition = builder.definition := by
  induction sets using List.reverseRecOn with
  | nil => rfl
  | append_singleton sets entry ih => rw [setAll_concat, set, ih]

/-- What was set one after the other is what stands in the table. -/
theorem toList_setAll (typeName : Name) (definition : NodeId) :
    ((new typeName definition).setAll sets).table.entries.toList = Properties.ofSets sets := by
  induction sets using List.reverseRecOn with
  | nil => rfl
  | append_singleton sets entry ih =>
      obtain ⟨name, value⟩ := entry
      rw [setAll_concat, Properties.ofSets_concat, ← ih]
      exact PropertyTable.toList_set ..

end InstanceBuilder

/-- What holds of an instance whose properties were set in this order. -/
structure StructureInstance.Holds (built : StructureInstance) (sets : List (Name × Value)) :
    Prop where
  nodup : (built.properties.map Prod.fst).Nodup
  /-- Names stand in the order in which they were first set. -/
  order : built.properties.map Prod.fst = (sets.map Prod.fst).eraseDups
  /-- A name has the value that it was set to last. -/
  get?_eq_some_iff : ∀ name value, built.get? name = some value ↔
    ∃ before after, sets = before ++ (name, value) :: after ∧ name ∉ after.map Prod.fst
  get?_eq_none_iff : ∀ name, built.get? name = none ↔ name ∉ sets.map Prod.fst
  /-- Every name is known by the place of its property, and nothing else is known. -/
  lookup_eq_some_iff : ∀ name position, built.table.positions.lookup name = some position ↔
    ∃ h : position < built.table.entries.size, built.table.entries[position].1 = name
  /-- A search through the properties finds the same. -/
  search : ∀ name, built.get? name = (built.properties.find? (·.1 == name)).map Prod.snd
  /-- To set a name again changes its property and no other. -/
  replaces : ∀ name value, name ∈ sets.map Prod.fst →
    (built.table.set name value).entries.toList =
      built.properties.map fun entry => if entry.1 = name then (name, value) else entry
  /-- To set a new name adds a property at the end. -/
  adds : ∀ name value, name ∉ sets.map Prod.fst →
    (built.table.set name value).entries.toList = built.properties ++ [(name, value)]

theorem StructureInstance.holds_of_eq_ofSets {built : StructureInstance}
    {sets : List (Name × Value)} (h : built.properties = Properties.ofSets sets) :
    built.Holds sets := by
  have hget (name : Name) : built.get? name = built.properties.get? name :=
    built.table.get?_eq name
  have hnodup : (built.properties.map Prod.fst).Nodup := built.table.locates.nodup
  have horder : built.properties.map Prod.fst = (sets.map Prod.fst).eraseDups := by
    rw [h, Properties.map_fst_ofSets]
  have hmem (name : Name) : name ∈ built.properties.map Prod.fst ↔ name ∈ sets.map Prod.fst := by
    rw [horder, List.mem_eraseDups]
  exact {
    nodup := hnodup
    order := horder
    get?_eq_some_iff := fun name value => by
      rw [hget, h, Properties.get?_ofSets_eq_some_iff]
    get?_eq_none_iff := fun name => by rw [hget, Properties.get?_eq_none_iff, hmem]
    lookup_eq_some_iff := fun _ _ => PropertyTable.lookup_eq_some_iff
    search := fun name => by rw [hget, Properties.get?_eq_find?]
    replaces := fun name value hold => by
      rw [PropertyTable.toList_set]
      exact Properties.set_eq_map hnodup ((hmem name).mpr hold) value
    adds := fun name value hnew => by
      rw [PropertyTable.toList_set]
      exact Properties.set_eq_append (mt (hmem name).mp hnew) value }

/-- Whatever is set, and in whatever order, each name keeps its first place and its last value. -/
theorem InstanceBuilder.finish_holds (typeName : Name) (definition : NodeId) (identity : Identity)
    (sets : List (Name × Value)) :
    (((new typeName definition).setAll sets).finish identity).Holds sets ∧
      (((new typeName definition).setAll sets).finish identity).toValue =
        .inst identity typeName definition (Properties.ofSets sets) := by
  have h : (((new typeName definition).setAll sets).finish identity).properties =
      Properties.ofSets sets := toList_setAll sets typeName definition
  refine ⟨StructureInstance.holds_of_eq_ofSets h, ?_⟩
  rw [StructureInstance.toValue, h]
  simp only [finish, typeName_setAll, definition_setAll, new]

end Bindery
