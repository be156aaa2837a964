import Bindery.Proofs.Scope.Visible

/-!
The rules of scope, told by the tree alone. A block shows its definitions to the statements after
them, and a structure shows its inputs to later inputs and to its body. What is shown to a node is
seen everywhere under it, but not past the definition of a structure. The resolver lists just what
is seen, the innermost first.
-/

namespace Bindery.Source

variable {source : Source}

/-- `source.Leads top between id`: the way from `top` down to `id` passes through `between`, which
starts with `top` and ends before `id`. -/
inductive Leads (source : Source) : NodeId → List NodeId → NodeId → Prop
  | here {id} : Leads source id [] id
  | down {top child between id} : child ∈ source.children top → Leads source child between id →
      Leads source top (top :: between) id

/-- The node stands under `top`, at any depth. -/
def Under (source : Source) (top id : NodeId) : Prop :=
  ∃ child between, child ∈ source.children top ∧ source.Leads child between id

/-- `source.Shows parent child id`: of the children of `parent`, `child` sees `id`. -/
inductive Shows (source : Source) (parent child : NodeId) : NodeId → Prop
  | statement {statements id} : source.kind parent = .block statements →
      [id, child].Sublist (source.list statements) → Shows source parent child id
  | input {definition id} : source.kind parent = .structureDef definition →
      [id, child].Sublist (source.list definition.inputs) → Shows source parent child id
  | body {definition id} : source.kind parent = .structureDef definition →
      definition.body = some child → id ∈ source.list definition.inputs →
      Shows source parent child id

/-- The node is a bind or the definition of a structure. -/
def Defines (source : Source) (id : NodeId) : Prop :=
  (∃ bind, source.kind id = .bind bind) ∨ ∃ definition, source.kind id = .structureDef definition

/-- The definition `id` is in scope at `position`: its parent shows it to the child on the way down
to `position`, and no structure is defined between these two. -/
structure Sees (source : Source) (position id : NodeId) : Prop where
  place : ∀ name, source.kind position ≠ .memberName name
  defines : source.Defines id
  shown : ∃ parent child between, source.parent? id = some parent ∧
    child ∈ source.children parent ∧ source.Leads child between position ∧
    (∀ node ∈ between, ∀ definition, source.kind node ≠ .structureDef definition) ∧
    source.Shows parent child id

/-- The one definition is listed before the other: it is declared further in, or earlier by the same
parent. -/
def ListedBefore (source : Source) (id id' : NodeId) : Prop :=
  ∃ parent parent', source.parent? id = some parent ∧ source.parent? id' = some parent' ∧
    (source.Under parent' parent ∨
      parent = parent' ∧ [id, id'].Sublist (source.children parent))

namespace Leads

variable {top id child : NodeId} {between : List NodeId}

theorem snoc (h : source.Leads top between id) (hchild : child ∈ source.children id) :
    source.Leads top (between ++ [id]) child := by
  induction h with
  | here => exact .down hchild .here
  | down hmem _ ih => exact .down hmem (ih hchild)

/-- The last step of a way. -/
theorem last (h : source.Leads top between id) :
    top = id ∧ between = [] ∨
      ∃ before node, between = before ++ [node] ∧ source.Leads top before node ∧
        id ∈ source.children node := by
  induction h with
  | here => exact .inl ⟨rfl, rfl⟩
  | @down top child between id hmem _ ih =>
      refine .inr ?_
      rcases ih with ⟨rfl, rfl⟩ | ⟨before, node, rfl, hbefore, hnode⟩
      · exact ⟨[], top, rfl, .here, hmem⟩
      · exact ⟨top :: before, node, rfl, .down hmem hbefore, hnode⟩

end Leads

namespace Under

variable {top id node : NodeId}

theorem of_child (hnode : node ∈ source.children top) : source.Under top node :=
  ⟨node, [], hnode, .here⟩

theorem further (h : source.Under top id) (hnode : node ∈ source.children id) :
    source.Under top node := by
  obtain ⟨first, between, hfirst, hleads⟩ := h
  exact ⟨first, between ++ [id], hfirst, hleads.snoc hnode⟩

end Under

theorem defines_iff {id : NodeId} : source.Defines id ↔ (source.definition? id).isSome = true := by
  simp only [Defines, definition?]
  cases source.kind id <;> simp

theorem node_of_definition? {id : NodeId} {definition : Definition}
    (h : source.definition? id = some definition) : definition.node = id := by
  simp only [definition?] at h
  split at h <;> cases h <;> rfl

theorem kind_of_definition? {id bind : NodeId} (h : source.definition? id = some (.bind bind)) :
    ∃ declared, source.kind bind = .bind declared := by
  simp only [definition?] at h
  split at h
  · cases h
    exact ⟨_, ‹_›⟩
  · cases h
  · cases h

theorem mem_filterMap_definition? {ids : List NodeId} {definition : Definition} :
    definition ∈ ids.filterMap source.definition? ↔
      source.definition? definition.node = some definition ∧ definition.node ∈ ids := by
  rw [List.mem_filterMap]
  constructor
  · intro h
    obtain ⟨id, hid, hdefinition⟩ := h
    obtain rfl := node_of_definition? hdefinition
    exact ⟨hdefinition, hid⟩
  · intro h
    exact ⟨definition.node, h.2, h.1⟩

theorem mem_definitionsInScope_iff {id : NodeId} {definition : Definition} :
    definition ∈ source.definitionsInScope id ↔ definition ∈ source.visible id := by
  simp only [definitionsInScope, visible, List.mem_flatten, List.mem_reverse]

/-- An entry before another one in a list without repetitions. -/
theorem mem_takeWhile_ne_iff {id child : NodeId} {list : List NodeId} (hnodup : list.Nodup)
    (hchild : child ∈ list) :
    id ∈ list.takeWhile (· != child) ↔ [id, child].Sublist list := by
  obtain ⟨after, hlist⟩ := exists_eq_takeWhile_ne_append hchild
  constructor
  · intro hid
    rw [hlist]
    exact (List.singleton_sublist.mpr hid).append (List.singleton_sublist.mpr List.mem_cons_self)
  · intro hsublist
    rw [hlist] at hsublist hnodup
    obtain ⟨front, back, heq, hfront, hback⟩ := List.sublist_append_iff.mp hsublist
    cases front with
    | cons first front =>
        obtain ⟨rfl, -⟩ := List.cons.inj heq
        exact hfront.subset List.mem_cons_self
    | nil =>
        -- Otherwise the child would come a second time after its first occurrence.
        obtain rfl : [id, child] = back := heq
        obtain ⟨-, hcons, -⟩ := List.nodup_append.mp hnodup
        have hnot := (List.nodup_cons.mp hcons).1
        rcases List.sublist_cons_iff.mp hback with hback | ⟨rest, heq, hback⟩
        · exact absurd (hback.subset (by simp)) hnot
        · cases heq
          exact absurd (hback.subset List.mem_cons_self) hnot

namespace WellFormed

variable {parent id : NodeId}

theorem index_lt_of_under (h : source.WellFormed) {top : NodeId} (hunder : source.Under top id) :
    id.index < top.index := by
  obtain ⟨child, between, hchild, hleads⟩ := hunder
  have hlt := h.index_lt_of_mem_children hchild
  suffices hle : id.index ≤ child.index from Nat.lt_of_le_of_lt hle hlt
  clear hchild hlt
  induction hleads with
  | here => exact Nat.le_refl _
  | down hmem _ ih =>
      have := h.index_lt_of_mem_children hmem
      omega

/-- A node stands under another one if its parent is that one or stands under it. -/
theorem under_iff_of_mem_children (h : source.WellFormed) (hid : id ∈ source.children parent)
    {top : NodeId} : source.Under top id ↔ top = parent ∨ source.Under top parent := by
  constructor
  · intro hunder
    obtain ⟨child, between, hchild, hleads⟩ := hunder
    rcases hleads.last with ⟨rfl, -⟩ | ⟨before, node, -, hbefore, hnode⟩
    · cases (h.parent?_eq_some.mpr hchild).symm.trans (h.parent?_eq_some.mpr hid)
      exact .inl rfl
    · cases (h.parent?_eq_some.mpr hnode).symm.trans (h.parent?_eq_some.mpr hid)
      exact .inr ⟨child, before, hchild, hbefore⟩
  · intro habove
    rcases habove with rfl | hunder
    · exact .of_child hid
    · exact hunder.further hid

theorem not_under_of_parent?_eq_none (h : source.WellFormed) (hparent : source.parent? id = none)
    (top : NodeId) : ¬ source.Under top id := by
  intro hunder
  have hchild {node : NodeId} (hmem : id ∈ source.children node) : False := by
    rw [h.parent?_eq_some.mpr hmem] at hparent
    cases hparent
  obtain ⟨child, between, hmem, hleads⟩ := hunder
  rcases hleads.last with ⟨rfl, -⟩ | ⟨_, _, -, -, hmem'⟩
  · exact hchild hmem
  · exact hchild hmem'

/-- What stands under a node has no smaller number than the first of what is under the node. -/
theorem le_index_of_under {top : NodeId} {first : Nat}
    (hinterval : source.arena.Interval first (source.children top) top.index)
    (hunder : source.Under top id) : first ≤ id.index := by
  obtain ⟨child, between, hchild, hleads⟩ := hunder
  induction hleads generalizing top first with
  | here => exact (hinterval.bounds hchild).1
  | @down child next between id hmem _ ih =>
      have hbounds := hinterval.bounds hchild
      obtain ⟨first', hle, hinterval'⟩ := hinterval.children hbounds.1 hbounds.2
      exact Nat.le_trans hle (ih hinterval' hmem)

theorem mem_children_of_shows {child : NodeId} (hshows : source.Shows parent child id) :
    id ∈ source.children parent := by
  cases hshows with
  | statement hkind hsublist =>
      rw [children_of_block hkind]
      exact hsublist.subset List.mem_cons_self
  | input hkind hsublist =>
      rw [children_of_structureDef hkind]
      exact List.mem_append_left _ (hsublist.subset List.mem_cons_self)
  | body hkind _ hinput =>
      rw [children_of_structureDef hkind]
      exact List.mem_append_left _ hinput

/-- Something is seen at a node if its parent shows it there, or if it is seen at the parent and the
parent is no structure. -/
theorem sees_iff (h : source.WellFormed) (hid : id ∈ source.children parent)
    (hplace : ∀ name, source.kind id ≠ .memberName name) {seen : NodeId} :
    source.Sees id seen ↔
      source.Defines seen ∧ source.Shows parent id seen ∨
        (∀ definition, source.kind parent ≠ .structureDef definition) ∧
          source.Sees parent seen := by
  constructor
  · intro hsees
    obtain ⟨outer, child, between, hparent, hchild, hleads, hbetween, hshows⟩ := hsees.shown
    rcases hleads.last with ⟨rfl, rfl⟩ | ⟨before, node, rfl, hbefore, hnode⟩
    · have heq := (h.parent?_eq_some.mpr hchild).symm.trans (h.parent?_eq_some.mpr hid)
      cases heq
      exact .inl ⟨hsees.defines, hshows⟩
    · have heq := (h.parent?_eq_some.mpr hnode).symm.trans (h.parent?_eq_some.mpr hid)
      cases heq
      refine .inr ⟨hbetween parent (by simp), ⟨fun name hname => ?_, hsees.defines, ?_⟩⟩
      · exact shape_of_mem_children hid (by rw [hname]; rfl)
      · exact ⟨outer, child, before, hparent, hchild, hbefore,
          fun node hnode => hbetween node (List.mem_append_left _ hnode), hshows⟩
  · intro hsees
    rcases hsees with ⟨hdefines, hshows⟩ | ⟨hstructure, hsees⟩
    · exact ⟨hplace, hdefines, parent, id, [], h.parent?_eq_some.mpr (mem_children_of_shows hshows),
        hid, .here, fun _ hnode => absurd hnode List.not_mem_nil, hshows⟩
    · obtain ⟨outer, child, between, hparent, hchild, hleads, hbetween, hshows⟩ := hsees.shown
      refine ⟨hplace, hsees.defines, outer, child, between ++ [parent], hparent, hchild,
        hleads.snoc hid, fun node hnode => ?_, hshows⟩
      rcases List.mem_append.mp hnode with hnode | hnode
      · exact hbetween node hnode
      · rw [List.mem_singleton.mp hnode]
        exact hstructure

theorem not_sees_of_parent?_eq_none (h : source.WellFormed) (hparent : source.parent? id = none)
    (seen : NodeId) : ¬ source.Sees id seen := by
  intro hsees
  obtain ⟨outer, child, between, -, hmem, hleads, -⟩ := hsees.shown
  exact h.not_under_of_parent?_eq_none hparent outer ⟨child, between, hmem, hleads⟩

/-- The name in a property access stands nowhere else. -/
theorem visibility_memberName (h : source.WellFormed) (hid : id ∈ source.children parent)
    {name : Name} (hname : source.kind id = .memberName name) :
    source.visibility parent id = .hidden := by
  rw [children, Arena.children_eq_map_placements] at hid
  obtain ⟨⟨place, node⟩, hplaced, rfl⟩ := List.mem_map.mp hid
  have hadmits := h.admits_of_placed hplaced
  rw [hname] at hadmits
  cases place with
  | statement | input | body | expression => cases hadmits
  | member =>
      have hkind' : source.arena.kind parent = source.kind parent := rfl
      rw [hkind'] at hplaced
      cases hkind : source.kind parent with
      | property subject member =>
          have heq : node = member := by simpa [hkind, Arena.placements] using hplaced
          simp only [visibility, hkind, heq, if_true]
      | block | bind | structureDef | memberName | reference | evaluate | number | text | boolean
      | binary | unary | conditional => simp [hkind, Arena.placements] at hplaced

theorem definitionsInScope_memberName (h : source.WellFormed) {name : Name}
    (hname : source.kind id = .memberName name) : source.definitionsInScope id = [] := by
  cases hparent : source.parent? id with
  | none =>
      simp only [definitionsInScope, levels, ancestors_of_parent?_eq_none hparent]
      rfl
  | some parent =>
      have hid := h.parent?_eq_some.mp hparent
      simp [definitionsInScope, levels, h.levelsAlong_of_parent hid,
        h.visibility_memberName hid hname]

/-- What a parent contributes at a child, and whether more is seen further out, is what the rules of
scope say. -/
theorem exists_shown (h : source.WellFormed) (hid : id ∈ source.children parent)
    (hplace : ∀ name, source.kind id ≠ .memberName name) :
    ∃ shown : List NodeId,
      (source.structure? parent = none ∧ source.visibility parent id = .collect shown ∨
        source.structure? parent = none ∧ source.visibility parent id = .proceed ∧ shown = [] ∨
        (source.structure? parent).isSome = true ∧ source.visibility parent id = .stop shown) ∧
      (∀ seen, seen ∈ shown ↔ source.Shows parent id seen) ∧
      shown.Sublist (source.children parent) := by
  have hnodup := h.nodup_children hid
  cases hkind : source.kind parent with
  | block statements =>
      rw [children_of_block hkind] at hid hnodup ⊢
      refine ⟨(source.list statements).takeWhile (· != id),
        .inl ⟨by simp only [structure?, hkind], by simp only [visibility, hkind]⟩, fun seen => ?_,
        (List.takeWhile_prefix _).sublist⟩
      rw [mem_takeWhile_ne_iff hnodup hid]
      refine ⟨.statement hkind, fun hshows => ?_⟩
      cases hshows with
      | statement hkind' hsublist => cases hkind.symm.trans hkind'; exact hsublist
      | input hkind' _ | body hkind' _ _ => cases hkind.symm.trans hkind'
  | structureDef definition =>
      rw [children_of_structureDef hkind] at hid hnodup ⊢
      by_cases hbody : definition.body = some id
      · refine ⟨source.list definition.inputs,
          .inr (.inr ⟨by simp [structure?, hkind], visibility_body hkind hbody⟩), fun seen => ?_,
          List.sublist_append_left _ _⟩
        refine ⟨.body hkind hbody, fun hshows => ?_⟩
        cases hshows with
        | statement hkind' _ => cases hkind.symm.trans hkind'
        | input hkind' hsublist =>
            cases hkind.symm.trans hkind'
            exact hsublist.subset List.mem_cons_self
        | body hkind' _ hinput => cases hkind.symm.trans hkind'; exact hinput
      · have hinput : id ∈ source.list definition.inputs := by
          rcases List.mem_append.mp hid with hid | hid
          · exact hid
          · exact absurd (Option.mem_toList.mp hid) hbody
        refine ⟨(source.list definition.inputs).takeWhile (· != id),
          .inr (.inr ⟨by simp [structure?, hkind],
            by simp only [visibility, hkind, hbody, if_false]⟩),
          fun seen => ?_, (List.takeWhile_prefix _).sublist.trans (List.sublist_append_left _ _)⟩
        rw [mem_takeWhile_ne_iff (List.nodup_append.mp hnodup).1 hinput]
        refine ⟨.input hkind, fun hshows => ?_⟩
        cases hshows with
        | statement hkind' _ => cases hkind.symm.trans hkind'
        | input hkind' hsublist => cases hkind.symm.trans hkind'; exact hsublist
        | body hkind' hbody' _ => cases hkind.symm.trans hkind'; exact absurd hbody' hbody
  | bind | property | memberName | reference | evaluate | number | text | boolean | binary | unary
  | conditional =>
      refine ⟨[], .inr (.inl ⟨by simp only [structure?, hkind], ?_, rfl⟩),
        fun seen => ⟨fun hseen => absurd hseen List.not_mem_nil, fun hshows => ?_⟩,
        List.nil_sublist _⟩
      · -- Only the name in a property access is hidden.
        cases hvisibility : source.visibility parent id with
        | proceed => rfl
        | hidden =>
            have hshape := h.shape_of_hidden hvisibility
            cases hkind' : source.kind id with
            | memberName name => exact absurd hkind' (hplace name)
            | block | bind | structureDef | property | reference | evaluate | number | text
            | boolean | binary | unary | conditional => rw [hkind'] at hshape; cases hshape
        | collect | stop =>
            simp only [visibility, hkind] at hvisibility
            first
              | cases hvisibility
              | split at hvisibility <;> cases hvisibility
      · cases hshows with
        | statement hkind' _ | input hkind' _ | body hkind' _ _ => cases hkind.symm.trans hkind'

/-- The definitions in scope at a node are those that the parent shows, and unless that is a
structure those in scope at the parent. -/
theorem definitionsInScope_of_parent (h : source.WellFormed) (hid : id ∈ source.children parent)
    (hplace : ∀ name, source.kind id ≠ .memberName name) :
    ∃ shown : List NodeId,
      source.definitionsInScope id = shown.filterMap source.definition? ++
        (if (source.structure? parent).isSome then [] else source.definitionsInScope parent) ∧
      (∀ seen, seen ∈ shown ↔ source.Shows parent id seen) ∧
      shown.Sublist (source.children parent) := by
  obtain ⟨shown, hvisibility, hshown⟩ := h.exists_shown hid hplace
  refine ⟨shown, ?_, hshown⟩
  rcases hvisibility with ⟨hnone, hcollect⟩ | ⟨hnone, hproceed, rfl⟩ | ⟨hsome, hstop⟩
  · have hlevels := h.levelsAlong_isSome parent (shape_of_mem_children hid)
    obtain ⟨outer, houter⟩ := Option.isSome_iff_exists.mp hlevels
    simp [definitionsInScope, levels, h.levelsAlong_of_parent hid, hcollect, houter, hnone]
  · simp [definitionsInScope, levels, h.levelsAlong_of_parent hid, hproceed, hnone]
  · simp [definitionsInScope, levels, h.levelsAlong_of_parent hid, hstop, hsome]

theorem mem_definitionsInScope_iff_sees (h : source.WellFormed) :
    ∀ position definition, definition ∈ source.definitionsInScope position ↔
      source.definition? definition.node = some definition ∧
        source.Sees position definition.node := by
  refine h.top_down (fun position hparent definition => ?_)
    fun parent position hposition ih definition => ?_
  · rw [mem_definitionsInScope_iff, visible_of_parent?_eq_none hparent]
    exact ⟨fun hnil => absurd hnil List.not_mem_nil,
      fun hsees => absurd hsees.2 (h.not_sees_of_parent?_eq_none hparent _)⟩
  · by_cases hmember : ∃ name, source.kind position = .memberName name
    · obtain ⟨name, hname⟩ := hmember
      rw [h.definitionsInScope_memberName hname]
      exact ⟨fun hnil => absurd hnil List.not_mem_nil,
        fun hsees => absurd hname (hsees.2.place name)⟩
    · have hplace := not_exists.mp hmember
      obtain ⟨shown, hscope, hshown, -⟩ := h.definitionsInScope_of_parent hposition hplace
      rw [hscope, List.mem_append, mem_filterMap_definition?, hshown,
        h.sees_iff hposition hplace]
      have hdefines (hdefinition : source.definition? definition.node = some definition) :
          source.Defines definition.node := defines_iff.mpr (by rw [hdefinition]; rfl)
      have houter : definition ∈ (if (source.structure? parent).isSome then []
            else source.definitionsInScope parent) ↔
          source.definition? definition.node = some definition ∧
            (∀ structureDef, source.kind parent ≠ .structureDef structureDef) ∧
              source.Sees parent definition.node := by
        cases hkind : source.kind parent with
        | structureDef structureDef => simp [structure?, hkind]
        | block | bind | property | memberName | reference | evaluate | number | text | boolean
        | binary | unary | conditional => simp [structure?, hkind, ih definition]
      rw [houter, ← and_or_left]
      exact and_congr_right fun hdefinition => or_congr_left
        ⟨fun hshows => ⟨hdefines hdefinition, hshows⟩, fun hshows => hshows.2⟩

theorem not_listedBefore_self (h : source.WellFormed) : ¬ source.ListedBefore id id := by
  intro hlisted
  obtain ⟨outer, outer', houter, houter', hunder | ⟨-, hsublist⟩⟩ := hlisted
  · cases houter.symm.trans houter'
    exact absurd (h.index_lt_of_under hunder) (Nat.lt_irrefl _)
  · have hnodup := (h.nodup_children (h.parent?_eq_some.mp houter)).sublist hsublist
    exact (List.nodup_cons.mp hnodup).1 List.mem_cons_self

theorem pairwise_listedBefore (h : source.WellFormed) :
    ∀ position, (source.definitionsInScope position).Pairwise fun definition further =>
      source.ListedBefore definition.node further.node := by
  refine h.top_down (fun position hparent => ?_) fun parent position hposition ih => ?_
  · have hnil : source.definitionsInScope position = [] :=
      List.eq_nil_iff_forall_not_mem.mpr fun definition hmem =>
        h.not_sees_of_parent?_eq_none hparent _
          ((h.mem_definitionsInScope_iff_sees position definition).mp hmem).2
    rw [hnil]
    exact .nil
  · by_cases hmember : ∃ name, source.kind position = .memberName name
    · obtain ⟨name, hname⟩ := hmember
      rw [h.definitionsInScope_memberName hname]
      exact .nil
    · obtain ⟨shown, hscope, -, hsublist⟩ :=
        h.definitionsInScope_of_parent hposition (not_exists.mp hmember)
      rw [hscope, List.pairwise_append]
      refine ⟨?_, ?_, fun definition hdefinition further hfurther => ?_⟩
      · rw [List.pairwise_filterMap, List.pairwise_iff_forall_sublist]
        intro id id' hpair definition hdefinition further hfurther
        obtain rfl := node_of_definition? hdefinition
        obtain rfl := node_of_definition? hfurther
        have hpair := hpair.trans hsublist
        exact ⟨parent, parent, h.parent?_eq_some.mpr (hpair.subset (by simp)),
          h.parent?_eq_some.mpr (hpair.subset (by simp)), .inr ⟨rfl, hpair⟩⟩
      · split
        · exact .nil
        · exact ih
      · -- What is listed further out has its parent above this one.
        obtain ⟨-, hshown⟩ := mem_filterMap_definition?.mp hdefinition
        split at hfurther
        · cases hfurther
        · obtain ⟨outer, child, between, houter, hchild, hleads, -⟩ :=
            ((h.mem_definitionsInScope_iff_sees _ _).mp hfurther).2.shown
          exact ⟨parent, outer, h.parent?_eq_some.mpr (hsublist.subset hshown), houter,
            .inl ⟨child, between, hchild, hleads⟩⟩

theorem kind_of_visible (h : source.WellFormed) {position bind : NodeId}
    (hvisible : .bind bind ∈ source.visible position) :
    ∃ declared, source.kind bind = .bind declared :=
  kind_of_definition? ((h.mem_definitionsInScope_iff_sees position _).mp
    (mem_definitionsInScope_iff.mpr hvisible)).1

/-- A definition in scope is neither above nor below the position. -/
theorem apart_of_mem_definitionsInScope (h : source.WellFormed) {position : NodeId}
    {definition : Definition} (hmem : definition ∈ source.definitionsInScope position) :
    definition.node ≠ position ∧ ¬ source.Under definition.node position ∧
      ¬ source.Under position definition.node := by
  have hvisible := mem_definitionsInScope_iff.mp hmem
  have hlt := h.index_lt_of_visible hvisible
  obtain ⟨⟨first, hinterval, hfirst⟩, -⟩ := h.visible_before position definition hvisible
  refine ⟨fun heq => ?_, fun hunder => ?_, fun hunder => ?_⟩
  · rw [heq] at hlt
    exact Nat.lt_irrefl _ hlt
  · exact Nat.lt_asymm hlt (h.index_lt_of_under hunder)
  · exact Nat.not_le.mpr hfirst (le_index_of_under hinterval hunder)

/-- Inside a structure nothing from outside it is in scope. -/
theorem under_of_mem_definitionsInScope (h : source.WellFormed) {top : NodeId}
    {structureDef : StructureNode} (htop : source.kind top = .structureDef structureDef) :
    ∀ position, source.Under top position →
      ∀ definition ∈ source.definitionsInScope position, source.Under top definition.node := by
  refine h.top_down (fun position hparent hunder => ?_)
    fun parent position hposition ih hunder definition hmem => ?_
  · exact absurd hunder (h.not_under_of_parent?_eq_none hparent top)
  · have hplace : ∀ name, source.kind position ≠ .memberName name := fun name hname => by
      rw [h.definitionsInScope_memberName hname] at hmem
      cases hmem
    obtain ⟨shown, hscope, -, hsublist⟩ := h.definitionsInScope_of_parent hposition hplace
    rw [hscope, List.mem_append, mem_filterMap_definition?] at hmem
    have habove := h.under_iff_of_mem_children hposition |>.mp hunder
    rcases hmem with ⟨-, hshown⟩ | houter
    · have hsibling := hsublist.subset hshown
      rcases habove with rfl | habove
      · exact .of_child hsibling
      · exact habove.further hsibling
    · rcases habove with rfl | habove
      · simp [structure?, htop] at houter
      · split at houter
        · cases houter
        · exact ih habove definition houter

end WellFormed

/-- The resolver lists what the rules of scope say, nothing twice, the innermost parents first and
the children of one parent in their order. It lists neither the position itself nor what stands
above or under it, and inside a structure nothing from outside. -/
theorem definitionsInScope_lexical {name text : String} {interner : Interner} {source : Source}
    (h : (parse name text interner).1 = .ok source) (position : NodeId) :
    (∀ definition, definition ∈ source.definitionsInScope position ↔
      source.definition? definition.node = some definition ∧
        source.Sees position definition.node) ∧
    ((source.definitionsInScope position).map Definition.node).Nodup ∧
    ((source.definitionsInScope position).map Definition.node).Pairwise source.ListedBefore ∧
    (∀ definition ∈ source.definitionsInScope position, definition.node ≠ position ∧
      ¬ source.Under definition.node position ∧ ¬ source.Under position definition.node) ∧
    ∀ top structureDef, source.kind top = .structureDef structureDef → source.Under top position →
      ∀ definition ∈ source.definitionsInScope position, source.Under top definition.node := by
  have hsource := wellFormed_of_parse h
  have hlisted := List.pairwise_map.mpr (hsource.pairwise_listedBefore position)
  refine ⟨hsource.mem_definitionsInScope_iff_sees position, hlisted.imp fun hbefore heq => ?_,
    hlisted, fun definition hmem => hsource.apart_of_mem_definitionsInScope hmem,
    fun top structureDef htop => hsource.under_of_mem_definitionsInScope htop position⟩
  rw [heq] at hbefore
  exact hsource.not_listedBefore_self hbefore

/-- A structure inside a block, with a name outside and a name hidden by a property access. -/
theorem definitionsInScope_lexical_of_structure :
    ∃ source,
      (parse "<code>" "a: 1\n•P(x: 2 y: x) (z: y\nz)\nP(a).z" .empty).1 = .ok source ∧
      ∀ position,
        (∀ definition, definition ∈ source.definitionsInScope position ↔
          source.definition? definition.node = some definition ∧
            source.Sees position definition.node) ∧
        ((source.definitionsInScope position).map Definition.node).Nodup ∧
        ((source.definitionsInScope position).map Definition.node).Pairwise source.ListedBefore ∧
        (∀ definition ∈ source.definitionsInScope position, definition.node ≠ position ∧
          ¬ source.Under definition.node position ∧ ¬ source.Under position definition.node) ∧
        ∀ top structureDef, source.kind top = .structureDef structureDef →
          source.Under top position →
          ∀ definition ∈ source.definitionsInScope position,
            source.Under top definition.node := by
  obtain ⟨source, h⟩ : ∃ source,
      (parse "<code>" "a: 1\n•P(x: 2 y: x) (z: y\nz)\nP(a).z" .empty).1 = .ok source :=
    exists_of_isOk (by decide +kernel)
  exact ⟨source, h, definitionsInScope_lexical h⟩

end Bindery.Source
