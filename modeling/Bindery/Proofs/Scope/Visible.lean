import Bindery.Proofs.Tree.Parsed
import Bindery.Scope

/-!
What is visible at a node, told from the root downwards. The walk of the resolver goes up from the
node; here the definitions visible at a child are those visible at its parent, with what the parent
adds. A name refers to the last of them that has it.
-/

namespace Bindery.Source

variable {source : Source}

theorem takeWhile_ne_append {id : NodeId} {before after : List NodeId} (hid : id ∉ before) :
    (before ++ id :: after).takeWhile (· != id) = before := by
  have hbefore (other : NodeId) (hother : other ∈ before) : (other != id) = true :=
    bne_iff_ne.mpr fun heq => hid (heq ▸ hother)
  rw [List.takeWhile_append_of_pos hbefore, List.takeWhile_cons, bne_self_eq_false]
  simp only [Bool.false_eq_true, if_false, List.append_nil]

theorem exists_eq_takeWhile_ne_append {id : NodeId} {list : List NodeId} (hid : id ∈ list) :
    ∃ after, list = list.takeWhile (· != id) ++ id :: after := by
  obtain ⟨before, after, rfl, hnot⟩ := List.eq_append_cons_of_mem hid
  exact ⟨after, by rw [takeWhile_ne_append hnot]⟩

/-- The definitions visible at a node in the order in which they stand in the text. -/
def visible (source : Source) (id : NodeId) : List Definition :=
  (source.levels id).reverse.flatten

/-- A name refers to the last visible definition that has it. -/
theorem definitionOf?_eq (id : NodeId) (name : Name) :
    source.definitionOf? id name =
      (source.visible id).reverse.find? fun definition =>
        source.definedName? definition.node == some name := by
  rw [visible, List.reverse_flatten, List.map_reverse, List.reverse_reverse, List.find?_flatten,
    List.findSome?_map]
  rfl

theorem mem_visible_of_definitionOf? {id : NodeId} {name : Name} {definition : Definition}
    (h : source.definitionOf? id name = some definition) :
    definition ∈ source.visible id ∧ source.definedName? definition.node = some name := by
  rw [definitionOf?_eq] at h
  have hname := List.find?_some h
  exact ⟨List.mem_reverse.mp (List.mem_of_find?_eq_some h), eq_of_beq hname⟩

namespace WellFormed

variable {parent id : NodeId}

theorem children_of_block {statements : NodeRange}
    (hkind : source.kind parent = .block statements) :
    source.children parent = source.list statements := by
  simp only [children, Arena.children, show (source.arena.node parent).kind = _ from hkind]
  rfl

theorem children_of_structureDef {definition : StructureNode}
    (hkind : source.kind parent = .structureDef definition) :
    source.children parent = source.list definition.inputs ++ definition.body.toList := by
  simp only [children, Arena.children, show (source.arena.node parent).kind = _ from hkind]
  rfl

theorem lt_size_of_mem_children (hid : id ∈ source.children parent) :
    parent.index < source.arena.size := by
  by_cases hlt : parent.index < source.arena.size
  · exact hlt
  · have hkind : (source.arena.node parent).kind = .block .empty := by
      rw [Arena.node, Array.getElem?_eq_none (Nat.le_of_not_lt hlt)]
      rfl
    simp [children, Arena.children, hkind, Arena.list, NodeRange.empty, NodeRange.stop] at hid

theorem mem_nodes_iff (h : source.WellFormed) :
    id ∈ source.nodes ↔ id.index < source.arena.size := by
  refine ⟨h.bounded id, fun hid => ?_⟩
  obtain ⟨nodes, htraversal, hnodup, hmem⟩ := h.interval.traversal
  have heq : source.nodes = nodes := by
    rw [← h.traversal.preorder_eq h.nodup h.bounded]
    exact htraversal.preorder_eq hnodup fun id hid => ((hmem id).mp hid).2
  rw [heq]
  exact (hmem id).mpr ⟨Nat.zero_le _, hid⟩

theorem parent?_eq_some (h : source.WellFormed) :
    source.parent? id = some parent ↔ id ∈ source.children parent := by
  rw [h.parent?_eq_some_iff, h.mem_nodes_iff]
  exact ⟨And.right, fun hid => ⟨lt_size_of_mem_children hid, hid⟩⟩

/-- What is under a node has the numbers right before it. -/
theorem interval_children (h : source.WellFormed) (hid : id ∈ source.children parent) :
    ∃ first, source.arena.Interval first (source.children parent) parent.index := by
  obtain ⟨first, _, hinterval⟩ :=
    h.interval.children (Nat.zero_le _) (lt_size_of_mem_children hid)
  exact ⟨first, hinterval⟩

theorem index_lt_of_mem_children (h : source.WellFormed) (hid : id ∈ source.children parent) :
    id.index < parent.index := by
  obtain ⟨first, hinterval⟩ := h.interval_children hid
  exact (hinterval.bounds hid).2

theorem nodup_children (h : source.WellFormed) (hid : id ∈ source.children parent) :
    (source.children parent).Nodup :=
  h.traversal.nodup_children h.nodup (h.mem_nodes_iff.mpr (lt_size_of_mem_children hid))

theorem ancestors_of_parent (h : source.WellFormed) (hid : id ∈ source.children parent) :
    source.ancestors id = parent :: source.ancestors parent := by
  have hparent := h.parent?_eq_some.mpr hid
  have hlt := h.index_lt_of_mem_children hid
  have hsize := lt_size_of_mem_children hid
  have hstep (id parent : NodeId) (hparent : source.parent? id = some parent) :
      source.arena.size - parent.index < source.arena.size - id.index := by
    have hmem := h.parent?_eq_some.mp hparent
    have := h.index_lt_of_mem_children hmem
    have := lt_size_of_mem_children hmem
    omega
  unfold ancestors
  cases hs : source.arena.size with
  | zero => omega
  | succ budget =>
      simp only [ancestorsUpTo, hparent]
      have hbudget : source.arena.size - parent.index ≤ budget := by omega
      exact congrArg (parent :: ·) (ancestorsUpTo_eq (fun id => source.arena.size - id.index)
        hstep hbudget (Nat.le_succ_of_le hbudget))

theorem ancestors_of_parent?_eq_none (hparent : source.parent? id = none) :
    source.ancestors id = [] := by
  unfold ancestors
  cases source.arena.size with
  | zero => rfl
  | succ budget => simp only [ancestorsUpTo, hparent]

/-- What holds at every node without a parent, and at a child whenever at its parent, holds
everywhere. -/
theorem top_down {motive : NodeId → Prop} (h : source.WellFormed)
    (top : ∀ id, source.parent? id = none → motive id)
    (down : ∀ parent id, id ∈ source.children parent → motive parent → motive id) :
    ∀ id, motive id := by
  have bounded (distance : Nat) :
      ∀ id : NodeId, source.arena.size - id.index ≤ distance → motive id := by
    induction distance with
    | zero =>
        intro id hdistance
        refine top id ?_
        cases hparent : source.parent? id with
        | none => rfl
        | some parent =>
            have hmem := h.parent?_eq_some.mp hparent
            have := h.index_lt_of_mem_children hmem
            have := lt_size_of_mem_children hmem
            omega
    | succ distance ih =>
        intro id hdistance
        cases hparent : source.parent? id with
        | none => exact top id hparent
        | some parent =>
            have hmem := h.parent?_eq_some.mp hparent
            have := h.index_lt_of_mem_children hmem
            have := lt_size_of_mem_children hmem
            exact down parent id hmem (ih parent (by omega))
  exact fun id => bounded _ id (Nat.le_refl _)

theorem mem_children_of_placed {place : Place}
    (hid : (place, id) ∈ source.arena.placements (source.kind parent)) :
    id ∈ source.children parent := by
  rw [children, Arena.children_eq_map_placements]
  exact List.mem_map.mpr ⟨(place, id), hid, rfl⟩

theorem placed_argument {callee : NodeId} {arguments : NodeRange}
    (hkind : source.kind parent = .evaluate callee arguments) (hid : id ∈ source.list arguments) :
    (Place.expression, id) ∈ source.arena.placements (source.kind parent) := by
  rw [hkind]
  exact List.mem_cons_of_mem _ (List.mem_map.mpr ⟨id, hid, rfl⟩)

theorem index_lt_of_placed (h : source.WellFormed) {place : Place}
    (hid : (place, id) ∈ source.arena.placements (source.kind parent)) :
    id.index < parent.index :=
  h.index_lt_of_mem_children (mem_children_of_placed hid)

theorem lt_size_of_placed (h : source.WellFormed) {place : Place}
    (hid : (place, id) ∈ source.arena.placements (source.kind parent)) :
    id.index < source.arena.size :=
  Nat.lt_trans (h.index_lt_of_placed hid) (lt_size_of_mem_children (mem_children_of_placed hid))

theorem admits_of_placed (h : source.WellFormed) {place : Place}
    (hid : (place, id) ∈ source.arena.placements (source.kind parent)) :
    place.admits (source.kind id).shape = true :=
  h.fits parent (place, id) hid

theorem visibility_statement (h : source.WellFormed) {statements : NodeRange}
    {before after : List NodeId} (hkind : source.kind parent = .block statements)
    (hlist : source.list statements = before ++ id :: after) :
    source.visibility parent id = .collect before := by
  have hchildren : source.children parent = before ++ id :: after := by
    rw [children_of_block hkind, hlist]
  have hmem : id ∈ source.children parent := by simp [hchildren]
  have hnodup := h.nodup_children hmem
  rw [hchildren] at hnodup
  have hid : id ∉ before := fun hid =>
    (List.nodup_append.mp hnodup).2.2 id hid id List.mem_cons_self rfl
  simp only [visibility, hkind, hlist, takeWhile_ne_append hid]

theorem visibility_input (h : source.WellFormed) {definition : StructureNode}
    {before after : List NodeId} (hkind : source.kind parent = .structureDef definition)
    (hlist : source.list definition.inputs = before ++ id :: after) :
    source.visibility parent id = .stop before := by
  have hchildren : source.children parent = (before ++ id :: after) ++ definition.body.toList := by
    rw [children_of_structureDef hkind, hlist]
  have hmem : id ∈ source.children parent := by simp [hchildren]
  have hnodup := h.nodup_children hmem
  rw [hchildren] at hnodup
  obtain ⟨hinputs, -, hbody⟩ := List.nodup_append.mp hnodup
  have hne : ¬ definition.body = some id := fun hsome =>
    hbody id (by simp) id (by simp [hsome]) rfl
  have hid : id ∉ before := fun hid =>
    (List.nodup_append.mp hinputs).2.2 id hid id List.mem_cons_self rfl
  simp only [visibility, hkind, hlist, hne, if_false, takeWhile_ne_append hid]

theorem visibility_body {definition : StructureNode}
    (hkind : source.kind parent = .structureDef definition) (hbody : definition.body = some id) :
    source.visibility parent id = .stop (source.list definition.inputs) := by
  simp only [visibility, hkind, hbody, if_true]

/-- A child that is placed as an expression adds nothing to what is visible at its parent. -/
theorem visibility_expression (h : source.WellFormed)
    (hid : (Place.expression, id) ∈ source.arena.placements (source.kind parent)) :
    source.visibility parent id = .proceed := by
  have hmem := mem_children_of_placed hid
  cases hkind : source.kind parent with
  | block statements => simp [hkind, Arena.placements] at hid
  | structureDef definition => simp [hkind, Arena.placements] at hid
  | property subject member =>
      have hsubject : id = subject := by simpa [hkind, Arena.placements] using hid
      have hnodup := h.nodup_children hmem
      have hchildren : source.children parent = [subject, member] := by
        simp only [children, Arena.children]
        rw [show (source.arena.node parent).kind = .property subject member from hkind]
      have hne : ¬ member = subject := by simpa [hchildren, eq_comm] using hnodup
      simp only [visibility, hkind, hsubject, hne, if_false]
  | bind | memberName | reference | evaluate | number | text | boolean | binary | unary
  | conditional => simp only [visibility, hkind]

theorem levelsAlong_of_parent (h : source.WellFormed) (hid : id ∈ source.children parent) :
    source.levelsAlong id (source.ancestors id) =
      match source.visibility parent id with
      | .collect statements =>
        (source.levelsAlong parent (source.ancestors parent)).map
          (statements.filterMap source.definition? :: ·)
      | .proceed => source.levelsAlong parent (source.ancestors parent)
      | .stop inputs => some [inputs.filterMap source.definition?]
      | .hidden => none := by
  have hancestors := h.ancestors_of_parent hid
  simp only [hancestors]
  exact levelsAlong.eq_2 ..

/-- Only the name in a property access is no place in a scope. -/
theorem shape_of_hidden (h : source.WellFormed)
    (hvisibility : source.visibility parent id = .hidden) :
    (source.kind id).shape = .memberName := by
  cases hkind : source.kind parent with
  | property subject member =>
      have hmember : member = id := by
        simp only [visibility, hkind] at hvisibility
        split at hvisibility
        · assumption
        · cases hvisibility
      have hplaced : (Place.member, id) ∈ source.arena.placements (source.kind parent) := by
        simp [hkind, Arena.placements, hmember]
      have hadmits := h.admits_of_placed hplaced
      cases hshape : (source.kind id).shape with
      | memberName => rfl
      | block | bind | structureDef | plain => rw [hshape] at hadmits; cases hadmits
  | structureDef definition =>
      simp only [visibility, hkind] at hvisibility
      split at hvisibility <;> cases hvisibility
  | block | bind | memberName | reference | evaluate | number | text | boolean | binary | unary
  | conditional => simp only [visibility, hkind, reduceCtorEq] at hvisibility

theorem shape_of_mem_children (hid : id ∈ source.children parent) :
    (source.kind parent).shape ≠ .memberName := by
  intro hshape
  rw [children, Arena.children_eq_map_placements] at hid
  cases hkind : source.kind parent with
  | memberName name =>
      rw [show source.arena.kind parent = .memberName name from hkind] at hid
      cases hid
  | block | bind | structureDef | property | reference | evaluate | number | text | boolean
  | binary | unary | conditional => rw [hkind] at hshape; cases hshape

/-- Every node but the name in a property access is a place in a scope. -/
theorem levelsAlong_isSome (h : source.WellFormed) :
    ∀ id, (source.kind id).shape ≠ .memberName →
      (source.levelsAlong id (source.ancestors id)).isSome = true := by
  refine h.top_down (fun id hparent _ => ?_) fun parent id hid ih hshape => ?_
  · rw [ancestors_of_parent?_eq_none hparent]
    rfl
  · have hparent := ih (shape_of_mem_children hid)
    rw [h.levelsAlong_of_parent hid]
    cases hvisibility : source.visibility parent id with
    | collect statements => simpa using hparent
    | proceed => exact hparent
    | stop inputs => rfl
    | hidden => exact absurd (h.shape_of_hidden hvisibility) hshape

theorem visible_of_parent?_eq_none (hparent : source.parent? id = none) :
    source.visible id = [] := by
  rw [visible, levels, ancestors_of_parent?_eq_none hparent]
  rfl

theorem visible_of_collect (h : source.WellFormed) {statements : List NodeId}
    (hid : id ∈ source.children parent)
    (hvisibility : source.visibility parent id = .collect statements) :
    source.visible id = source.visible parent ++ statements.filterMap source.definition? := by
  have hparent := h.levelsAlong_isSome parent (shape_of_mem_children hid)
  obtain ⟨levels, hlevels⟩ := Option.isSome_iff_exists.mp hparent
  simp [visible, Source.levels, h.levelsAlong_of_parent hid, hvisibility, hlevels]

theorem visible_of_proceed (h : source.WellFormed) (hid : id ∈ source.children parent)
    (hvisibility : source.visibility parent id = .proceed) :
    source.visible id = source.visible parent := by
  simp only [visible, levels, h.levelsAlong_of_parent hid, hvisibility]

theorem visible_of_stop (h : source.WellFormed) {inputs : List NodeId}
    (hid : id ∈ source.children parent)
    (hvisibility : source.visibility parent id = .stop inputs) :
    source.visible id = inputs.filterMap source.definition? := by
  simp [visible, levels, h.levelsAlong_of_parent hid, hvisibility]

theorem visible_of_hidden (h : source.WellFormed) (hid : id ∈ source.children parent)
    (hvisibility : source.visibility parent id = .hidden) : source.visible id = [] := by
  simp [visible, levels, h.levelsAlong_of_parent hid, hvisibility]

theorem visible_of_placed (h : source.WellFormed)
    (hid : (Place.expression, id) ∈ source.arena.placements (source.kind parent)) :
    source.visible id = source.visible parent :=
  h.visible_of_proceed (mem_children_of_placed hid) (h.visibility_expression hid)

/-- What a parent shows a child stands right before the child. -/
theorem children_eq_append (hid : id ∈ source.children parent) {shown : List NodeId}
    (hvisibility : source.visibility parent id = .collect shown ∨
      source.visibility parent id = .stop shown) :
    ∃ after, source.children parent = shown ++ id :: after := by
  cases hkind : source.kind parent with
  | block statements =>
      rw [children_of_block hkind] at hid ⊢
      simp only [visibility, hkind, Visibility.collect.injEq, reduceCtorEq, or_false] at hvisibility
      subst hvisibility
      exact exists_eq_takeWhile_ne_append hid
  | structureDef definition =>
      rw [children_of_structureDef hkind] at hid ⊢
      by_cases hbody : definition.body = some id
      · rw [visibility_body hkind hbody] at hvisibility
        simp only [Visibility.stop.injEq, reduceCtorEq, false_or] at hvisibility
        exact ⟨[], by rw [← hvisibility, hbody, Option.toList_some]⟩
      · simp only [visibility, hkind, hbody, if_false, Visibility.stop.injEq, reduceCtorEq,
          false_or] at hvisibility
        subst hvisibility
        have hinput : id ∈ source.list definition.inputs := by
          rcases List.mem_append.mp hid with hid | hid
          · exact hid
          · exact absurd (Option.mem_toList.mp hid) hbody
        obtain ⟨after, hafter⟩ := exists_eq_takeWhile_ne_append hinput
        refine ⟨after ++ definition.body.toList, ?_⟩
        rw [← List.cons_append, ← List.append_assoc, ← hafter]
  | property subject member =>
      simp only [visibility, hkind] at hvisibility
      split at hvisibility <;> simp at hvisibility
  | bind | memberName | reference | evaluate | number | text | boolean | binary | unary
  | conditional => simp only [visibility, hkind, reduceCtorEq, or_self] at hvisibility

theorem node_mem_of_mem_filterMap {definition : Definition} {ids : List NodeId}
    (h : definition ∈ ids.filterMap source.definition?) : definition.node ∈ ids := by
  obtain ⟨id, hid, hdefinition⟩ := List.mem_filterMap.mp h
  simp only [definition?] at hdefinition
  split at hdefinition <;> cases hdefinition <;> exact hid

/-- A definition that is visible at a node stands before everything under the node, and its parent
is further out. -/
theorem visible_before (h : source.WellFormed) :
    ∀ id, ∀ definition ∈ source.visible id,
      (∃ first, source.arena.Interval first (source.children id) id.index ∧
        definition.node.index < first) ∧
      ∃ outer, definition.node ∈ source.children outer ∧ id.index < outer.index := by
  refine h.top_down (fun id hparent definition hvisible => ?_)
    fun parent id hid ih definition hvisible => ?_
  · rw [visible_of_parent?_eq_none hparent] at hvisible
    cases hvisible
  · have hlt := h.index_lt_of_mem_children hid
    -- What is seen at a node is seen at its parent or is a sibling before it.
    have of_parent (hvisible : definition ∈ source.visible parent) :
        (∃ first, source.arena.Interval first (source.children id) id.index ∧
          definition.node.index < first) ∧
        ∃ outer, definition.node ∈ source.children outer ∧ id.index < outer.index := by
      obtain ⟨⟨first, hinterval, hfirst⟩, outer, houter, hlt'⟩ := ih definition hvisible
      obtain ⟨first', hle, hinterval'⟩ := hinterval.children (hinterval.bounds hid).1 hlt
      exact ⟨⟨first', hinterval', by omega⟩, outer, houter, by omega⟩
    have of_shown {shown : List NodeId} (hshown : definition ∈ shown.filterMap source.definition?)
        (hvisibility : source.visibility parent id = .collect shown ∨
          source.visibility parent id = .stop shown) :
        (∃ first, source.arena.Interval first (source.children id) id.index ∧
          definition.node.index < first) ∧
        ∃ outer, definition.node ∈ source.children outer ∧ id.index < outer.index := by
      have hmem := node_mem_of_mem_filterMap hshown
      obtain ⟨after, hchildren⟩ := children_eq_append hid hvisibility
      obtain ⟨first, hinterval⟩ := h.interval_children hid
      rw [hchildren] at hinterval
      obtain ⟨middle, hbefore, hrest⟩ := hinterval.split
      cases hrest with
      | cons hbelow _ =>
          refine ⟨⟨middle, hbelow, (hbefore.bounds hmem).2⟩, parent, ?_, hlt⟩
          rw [hchildren]
          exact List.mem_append_left _ hmem
    cases hvisibility : source.visibility parent id with
    | collect shown =>
        rw [h.visible_of_collect hid hvisibility] at hvisible
        rcases List.mem_append.mp hvisible with hvisible | hshown
        · exact of_parent hvisible
        · exact of_shown hshown (.inl hvisibility)
    | proceed =>
        rw [h.visible_of_proceed hid hvisibility] at hvisible
        exact of_parent hvisible
    | stop shown =>
        rw [h.visible_of_stop hid hvisibility] at hvisible
        exact of_shown hvisible (.inr hvisibility)
    | hidden =>
        rw [h.visible_of_hidden hid hvisibility] at hvisible
        cases hvisible

theorem index_lt_of_visible (h : source.WellFormed) {definition : Definition}
    (hvisible : definition ∈ source.visible id) : definition.node.index < id.index := by
  obtain ⟨⟨first, hinterval, hlt⟩, -⟩ := h.visible_before id definition hvisible
  exact Nat.lt_of_lt_of_le hlt hinterval.le

theorem not_mem_visible (h : source.WellFormed) (id : NodeId) :
    Definition.bind id ∉ source.visible id := fun hvisible =>
  Nat.lt_irrefl _ (h.index_lt_of_visible hvisible)

theorem lt_size_of_visible (h : source.WellFormed) {definition : Definition}
    (hvisible : definition ∈ source.visible id) :
    definition.node.index < source.arena.size := by
  obtain ⟨-, outer, hmem, -⟩ := h.visible_before id definition hvisible
  exact Nat.lt_trans (h.index_lt_of_mem_children hmem) (lt_size_of_mem_children hmem)

end WellFormed
end Bindery.Source
