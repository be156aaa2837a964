import Bindery.Tree.Source

/-!
The index of a source against the tree itself. A traversal lists the nodes under some roots by the
recursion of the tree, which the index replaces by a list of pending nodes. Where a traversal meets
no node twice, each of its nodes is a root or the child of exactly one node, and that node is the
parent which the index records.
-/

namespace Bindery

attribute [ext] NodeId

namespace Arena

variable {arena : Arena}

/-- `arena.Traversal roots nodes`: the nodes under the roots are `nodes`, each before what is under
it and the first root first. -/
inductive Traversal (arena : Arena) : List NodeId → List NodeId → Prop
  | nil : arena.Traversal [] []
  | cons {id roots below beside} : arena.Traversal (arena.children id) below →
      arena.Traversal roots beside → arena.Traversal (id :: roots) (id :: (below ++ beside))

namespace Traversal

variable {roots roots' nodes nodes' : List NodeId}

theorem append (h : arena.Traversal roots nodes) (h' : arena.Traversal roots' nodes') :
    arena.Traversal (roots ++ roots') (nodes ++ nodes') := by
  induction h with
  | nil => exact h'
  | @cons id roots below beside children _ _ ih =>
      have hcons := Traversal.cons children ih
      rw [← List.append_assoc] at hcons
      exact hcons

theorem preorderFrom_eq {budget : Nat} (h : arena.Traversal roots nodes)
    (hbudget : nodes.length ≤ budget) : arena.preorderFrom budget roots = nodes := by
  induction budget generalizing roots nodes with
  | zero =>
      have hnil : nodes = [] := List.length_eq_zero_iff.mp (Nat.le_zero.mp hbudget)
      rw [hnil]
      rfl
  | succ budget ih =>
      cases h with
      | nil => rfl
      | cons children beside =>
          simp only [preorderFrom]
          rw [ih (children.append beside) (Nat.le_of_succ_le_succ hbudget)]

/-- Every node of a traversal is there as a root or as a child of another one. -/
theorem count_eq (h : arena.Traversal roots nodes) (id : NodeId) :
    nodes.count id = roots.count id + (nodes.flatMap arena.children).count id := by
  induction h with
  | nil => rfl
  | cons _ _ below beside =>
      simp only [List.count_cons, List.count_append, List.flatMap_cons, List.flatMap_append]
      omega

theorem mem_children (h : arena.Traversal roots nodes) {parent id : NodeId}
    (hparent : parent ∈ nodes) (hid : id ∈ arena.children parent) : id ∈ nodes := by
  have hcount := h.count_eq id
  have hpos := List.count_pos_iff.mpr (List.mem_flatMap.mpr ⟨parent, hparent, hid⟩)
  exact List.count_pos_iff.mp (by omega)

theorem count_flatMap_le_one (h : arena.Traversal roots nodes) (hnodup : nodes.Nodup)
    (id : NodeId) : (nodes.flatMap arena.children).count id ≤ 1 := by
  have hcount := h.count_eq id
  have hone := List.nodup_iff_count.mp hnodup id
  omega

theorem nodup_children (h : arena.Traversal roots nodes) (hnodup : nodes.Nodup)
    {parent : NodeId} (hparent : parent ∈ nodes) : (arena.children parent).Nodup := by
  obtain ⟨before, after, rfl⟩ := List.append_of_mem hparent
  refine List.nodup_iff_count.mpr fun id => ?_
  have hone := h.count_flatMap_le_one hnodup id
  simp only [List.flatMap_append, List.flatMap_cons, List.count_append] at hone
  omega

theorem parent_unique (h : arena.Traversal roots nodes) (hnodup : nodes.Nodup)
    {parent parent' id : NodeId} (hparent : parent ∈ nodes) (hparent' : parent' ∈ nodes)
    (hid : id ∈ arena.children parent) (hid' : id ∈ arena.children parent') :
    parent' = parent := by
  obtain ⟨before, after, rfl⟩ := List.append_of_mem hparent
  have hone := h.count_flatMap_le_one hnodup id
  have hpos := List.count_pos_iff.mpr hid
  simp only [List.flatMap_append, List.flatMap_cons, List.count_append] at hone
  -- A second parent stands before or after the first one, and would count the child again.
  have absent (nodes : List NodeId) (hzero : (nodes.flatMap arena.children).count id = 0) :
      parent' ∉ nodes := fun hmem =>
    List.count_eq_zero.mp hzero (List.mem_flatMap.mpr ⟨parent', hmem, hid'⟩)
  simp only [List.mem_append, List.mem_cons] at hparent'
  rcases hparent' with hmem | rfl | hmem
  · exact absurd hmem (absent before (by omega))
  · rfl
  · exact absurd hmem (absent after (by omega))

theorem not_mem_children_of_root {root parent : NodeId} (h : arena.Traversal roots nodes)
    (hnodup : nodes.Nodup) (hroot : root ∈ roots) (hparent : parent ∈ nodes) :
    root ∉ arena.children parent := by
  intro hmem
  have hcount := h.count_eq root
  have hone := List.nodup_iff_count.mp hnodup root
  have hpos := List.count_pos_iff.mpr hroot
  have hpos' := List.count_pos_iff.mpr (List.mem_flatMap.mpr ⟨parent, hparent, hmem⟩)
  omega

end Traversal

/-- Nodes with different numbers below a bound are no more than the bound. -/
theorem length_le_of_nodup {nodes : List NodeId} {bound : Nat} (hnodup : nodes.Nodup)
    (hbound : ∀ id ∈ nodes, id.index < bound) : nodes.length ≤ bound := by
  have hsub : nodes ⊆ (List.range bound).map NodeId.mk := fun id hid =>
    List.mem_map.mpr ⟨id.index, List.mem_range.mpr (hbound id hid), rfl⟩
  have hle := hnodup.length_le_of_subset hsub
  rw [List.length_map, List.length_range] at hle
  exact hle

theorem Traversal.preorder_eq {root : NodeId} {nodes : List NodeId}
    (h : arena.Traversal [root] nodes) (hnodup : nodes.Nodup)
    (hbound : ∀ id ∈ nodes, id.index < arena.size) : arena.preorder root = nodes :=
  h.preorderFrom_eq (length_le_of_nodup hnodup hbound)

theorem size_foldl_setIfInBounds (children : List NodeId) (value : Option NodeId)
    (table : Array (Option NodeId)) :
    (children.foldl (fun table child => table.setIfInBounds child.index value) table).size =
      table.size := by
  induction children generalizing table with
  | nil => rfl
  | cons child rest ih => rw [List.foldl_cons, ih, Array.size_setIfInBounds]

/-- The table after the children of one node have been entered in it. -/
theorem getElem?_foldl_setIfInBounds (children : List NodeId) (value : Option NodeId)
    (table : Array (Option NodeId)) {id : NodeId} (hid : id.index < table.size) :
    (children.foldl (fun table child => table.setIfInBounds child.index value) table)[id.index]? =
      if id ∈ children then some value else table[id.index]? := by
  induction children generalizing table with
  | nil => rfl
  | cons child rest ih =>
      rw [List.foldl_cons, ih _ (by rw [Array.size_setIfInBounds]; exact hid),
        Array.getElem?_setIfInBounds]
      by_cases hchild : child.index = id.index
      · have heq : id = child := NodeId.ext hchild.symm
        have hlt : child.index < table.size := heq ▸ hid
        simp only [hchild, if_true, hid, heq, List.mem_cons, true_or, ite_self]
      · have hne : ¬ id = child := fun heq => hchild (congrArg NodeId.index heq.symm)
        simp only [hchild, if_false, List.mem_cons, hne, false_or]

/-- The index records the last of the given nodes that has a node as a child. -/
theorem parents_join (nodes : List NodeId) {id : NodeId} (hid : id.index < arena.size) :
    (arena.parents nodes)[id.index]?.join =
      nodes.reverse.find? fun parent => id ∈ arena.children parent := by
  have general (nodes : List NodeId) (table : Array (Option NodeId))
      (hsize : id.index < table.size) :
      (nodes.foldl
        (fun table parent => (arena.children parent).foldl
          (fun table child => table.setIfInBounds child.index (some parent)) table)
        table)[id.index]?.join =
      (nodes.reverse.find? fun parent => id ∈ arena.children parent).or
        table[id.index]?.join := by
    induction nodes generalizing table with
    | nil => rfl
    | cons parent rest ih =>
        rw [List.foldl_cons, ih _ (by rw [size_foldl_setIfInBounds]; exact hsize),
          getElem?_foldl_setIfInBounds _ _ _ hsize, List.reverse_cons, List.find?_append,
          Option.or_assoc]
        by_cases hmem : id ∈ arena.children parent
        · simp [hmem]
        · simp [hmem]
  rw [parents, general _ _ (by rw [Array.size_replicate]; exact hid),
    Array.getElem?_replicate, if_pos hid, Option.join_some, Option.or_none]

/-- A number out of bounds has no parent in the index. -/
theorem parents_join_of_le (nodes : List NodeId) {id : NodeId} (hid : arena.size ≤ id.index) :
    (arena.parents nodes)[id.index]?.join = none := by
  have general (nodes : List NodeId) (table : Array (Option NodeId)) :
      (nodes.foldl
        (fun table parent => (arena.children parent).foldl
          (fun table child => table.setIfInBounds child.index (some parent)) table)
        table).size = table.size := by
    induction nodes generalizing table with
    | nil => rfl
    | cons parent rest ih => rw [List.foldl_cons, ih, size_foldl_setIfInBounds]
  rw [Array.getElem?_eq_none, Option.join_none]
  rw [parents, general, Array.size_replicate]
  exact hid

end Arena

/-- The nodes of a source are those of the tree under its root, none of them met twice, and the
parents are those of these nodes. -/
structure Source.Indexed (source : Source) : Prop where
  traversal : source.arena.Traversal [source.root] source.nodes
  nodup : source.nodes.Nodup
  bounded : ∀ id ∈ source.nodes, id.index < source.arena.size
  parents_eq : source.parents = source.arena.parents source.nodes

namespace Source

variable {source : Source}

theorem indexed_ofArena (name text : String) {arena : Arena} {root : NodeId}
    (interner : Interner) {nodes : List NodeId} (h : arena.Traversal [root] nodes)
    (hnodup : nodes.Nodup) (hbound : ∀ id ∈ nodes, id.index < arena.size) :
    (ofArena name text arena root interner).Indexed := by
  have hnodes : arena.preorder root = nodes := h.preorder_eq hnodup hbound
  subst hnodes
  exact ⟨h, hnodup, hbound, rfl⟩

namespace Indexed

variable {parent id : NodeId}

theorem parent?_eq_some_iff (h : source.Indexed) :
    source.parent? id = some parent ↔ parent ∈ source.nodes ∧ id ∈ source.children parent := by
  by_cases hid : id.index < source.arena.size
  · rw [parent?, h.parents_eq, Arena.parents_join _ hid]
    constructor
    · intro hfind
      have hmem := List.mem_of_find?_eq_some hfind
      have hchild := List.find?_some hfind
      exact ⟨List.mem_reverse.mp hmem, of_decide_eq_true hchild⟩
    · intro ⟨hparent, hchild⟩
      cases hfind : source.nodes.reverse.find? fun parent => id ∈ source.arena.children parent with
      | none =>
          have hnone := List.find?_eq_none.mp hfind parent (List.mem_reverse.mpr hparent)
          exact absurd (decide_eq_true hchild) hnone
      | some found =>
          have hmem := List.mem_reverse.mp (List.mem_of_find?_eq_some hfind)
          have hchild' : id ∈ source.children found := by
            have hdecide := List.find?_some hfind
            exact of_decide_eq_true hdecide
          rw [h.traversal.parent_unique h.nodup hparent hmem hchild hchild']
  · rw [parent?, h.parents_eq, Arena.parents_join_of_le _ (Nat.le_of_not_lt hid)]
    constructor
    · intro hnone
      cases hnone
    · intro ⟨hparent, hchild⟩
      exact absurd (h.bounded id (h.traversal.mem_children hparent hchild)) hid

theorem parent?_root (h : source.Indexed) : source.parent? source.root = none := by
  cases hparent : source.parent? source.root with
  | none => rfl
  | some parent =>
      obtain ⟨hmem, hchild⟩ := h.parent?_eq_some_iff.mp hparent
      exact absurd hchild
        (h.traversal.not_mem_children_of_root h.nodup (List.mem_singleton.mpr rfl) hmem)

end Indexed

/-- Where every step to a parent lowers a measure, a budget that is not below the measure is more
than the path takes. -/
theorem ancestorsUpTo_eq (measure : NodeId → Nat)
    (hstep : ∀ id parent, source.parent? id = some parent → measure parent < measure id)
    {budget budget' : Nat} {id : NodeId} (hbudget : measure id ≤ budget)
    (hbudget' : measure id ≤ budget') :
    source.ancestorsUpTo budget id = source.ancestorsUpTo budget' id := by
  induction budget generalizing budget' id with
  | zero =>
      cases budget' with
      | zero => rfl
      | succ budget' =>
          cases hparent : source.parent? id with
          | none => simp only [ancestorsUpTo, hparent]
          | some parent =>
              have := hstep id parent hparent
              omega
  | succ budget ih =>
      cases hparent : source.parent? id with
      | none => cases budget' <;> simp only [ancestorsUpTo, hparent]
      | some parent =>
          have := hstep id parent hparent
          cases budget' with
          | zero => omega
          | succ budget' =>
              simp only [ancestorsUpTo, hparent]
              exact congrArg (parent :: ·) (ih (by omega) (by omega))

end Source
end Bindery
