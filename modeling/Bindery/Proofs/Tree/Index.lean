import Bindery.Proofs.Tree.Place
import Bindery.Proofs.Tree.Traversal

/-!
The index of any tree. An arena may hold its nodes under any numbers, and others besides: as long as
what can be reached from the root is a tree, the walk over pending nodes comes to an end, it meets
what the recursive traversal lists and in that order, and the parents and the paths to the root are
those of the tree.
-/

namespace Bindery
namespace Arena

/-- The node can be reached from the root. -/
inductive Reachable (arena : Arena) (root : NodeId) : NodeId → Prop
  | root : Reachable arena root root
  | child {parent id} : Reachable arena root parent → id ∈ arena.children parent →
      Reachable arena root id

/-- What can be reached from the root is a tree of nodes of the arena: the root is no child, and
every other node is a child once. Of nodes that cannot be reached nothing is said. -/
structure IsTree (arena : Arena) (root : NodeId) : Prop where
  bounded : ∀ id, arena.Reachable root id → id.index < arena.size
  orphan : ∀ parent, arena.Reachable root parent → root ∉ arena.children parent
  nodup : ∀ parent, arena.Reachable root parent → (arena.children parent).Nodup
  unique : ∀ parent parent' id, arena.Reachable root parent → arena.Reachable root parent' →
    id ∈ arena.children parent → id ∈ arena.children parent' → parent = parent'

/-- The nodes that are pending after so many steps of the walk. -/
def pendingAfter (arena : Arena) : (steps : Nat) → (pending : List NodeId) → List NodeId
  | 0, pending => pending
  | _ + 1, [] => []
  | steps + 1, id :: pending => arena.pendingAfter steps (arena.children id ++ pending)

/-- What the walk keeps: it has met different nodes of the tree and has others pending, and the
children of those that it has met are among them. -/
structure Walked (arena : Arena) (root : NodeId) (met pending : List NodeId) : Prop where
  reachable : ∀ id ∈ met ++ pending, arena.Reachable root id
  nodup : (met ++ pending).Nodup
  origin : ∀ id ∈ met ++ pending, id = root ∨ ∃ parent ∈ met, id ∈ arena.children parent
  closed : ∀ parent ∈ met, ∀ id ∈ arena.children parent, id ∈ met ++ pending
  root_mem : root ∈ met ++ pending

variable {arena : Arena} {root : NodeId}

theorem walked_start (arena : Arena) (root : NodeId) : arena.Walked root [] [root] where
  reachable id hid := by
    rw [List.mem_singleton.mp hid]
    exact .root
  nodup := List.nodup_cons.mpr ⟨List.not_mem_nil, List.nodup_nil⟩
  origin id hid := .inl (List.mem_singleton.mp hid)
  closed := nofun
  root_mem := List.mem_singleton.mpr rfl

namespace Walked

variable {met pending : List NodeId} {id : NodeId}

/-- The children of the first pending node are new: each has no other parent and is not the root. -/
theorem disjoint_children (htree : arena.IsTree root) (h : arena.Walked root met (id :: pending)) :
    ∀ child ∈ arena.children id, child ∉ met ++ id :: pending := by
  intro child hchild hmem
  have hid : arena.Reachable root id := h.reachable id (by simp)
  rcases h.origin child hmem with rfl | ⟨parent, hparent, hother⟩
  · exact htree.orphan id hid hchild
  · have hreachable := h.reachable parent (List.mem_append_left _ hparent)
    obtain rfl := htree.unique parent id child hreachable hid hother hchild
    exact (List.nodup_append.mp h.nodup).2.2 parent hparent parent List.mem_cons_self rfl

/-- One step of the walk meets the first pending node and puts its children before the others. -/
theorem step (htree : arena.IsTree root) (h : arena.Walked root met (id :: pending)) :
    arena.Walked root (met ++ [id]) (arena.children id ++ pending) := by
  have hid : arena.Reachable root id := h.reachable id (by simp)
  -- The same nodes as before, and the children of the one that is met.
  have hmem (node : NodeId) : node ∈ (met ++ [id]) ++ (arena.children id ++ pending) ↔
      node ∈ met ++ id :: pending ∨ node ∈ arena.children id := by
    simp only [List.mem_append, List.mem_cons, List.not_mem_nil, or_false]
    grind
  have hnew := h.disjoint_children htree
  refine ⟨fun node hnode => ?_, ?_, fun node hnode => ?_, fun parent hparent node hnode => ?_, ?_⟩
  · rcases (hmem node).mp hnode with hold | hchild
    · exact h.reachable node hold
    · exact .child hid hchild
  · have hperm : ((met ++ [id]) ++ (arena.children id ++ pending)).Perm
        ((met ++ id :: pending) ++ arena.children id) := by
      rw [List.append_assoc, List.append_assoc, List.singleton_append, List.cons_append]
      exact (List.perm_append_comm.cons id).append_left met
    refine hperm.nodup_iff.mpr (List.nodup_append.mpr ⟨h.nodup, htree.nodup id hid, ?_⟩)
    rintro node hold _ hchild rfl
    exact hnew node hchild hold
  · rcases (hmem node).mp hnode with hold | hchild
    · exact (h.origin node hold).imp_right fun ⟨parent, hparent, hnode⟩ =>
        ⟨parent, List.mem_append_left _ hparent, hnode⟩
    · exact .inr ⟨id, by simp, hchild⟩
  · rcases List.mem_append.mp hparent with hold | hlast
    · exact (hmem node).mpr (.inl (h.closed parent hold node hnode))
    · rw [List.mem_singleton.mp hlast] at hnode
      exact (hmem node).mpr (.inr hnode)
  · exact (hmem root).mpr (.inl h.root_mem)

/-- Any number of steps. -/
theorem run (htree : arena.IsTree root) (h : arena.Walked root met pending) (steps : Nat) :
    arena.Walked root (met ++ arena.preorderFrom steps pending)
      (arena.pendingAfter steps pending) := by
  induction steps generalizing met pending with
  | zero =>
      rw [preorderFrom, List.append_nil]
      exact h
  | succ steps ih =>
      cases pending with
      | nil =>
          simp only [preorderFrom, List.append_nil]
          exact h
      | cons id pending =>
          have hstep := ih (h.step htree)
          rw [List.append_assoc] at hstep
          exact hstep

theorem length_le (htree : arena.IsTree root) (h : arena.Walked root met pending) :
    met.length + pending.length ≤ arena.size := by
  rw [← List.length_append]
  exact length_le_of_nodup h.nodup fun id hid => htree.bounded id (h.reachable id hid)

theorem mem_of_reachable (h : arena.Walked root met []) {id : NodeId}
    (hid : arena.Reachable root id) : id ∈ met := by
  induction hid with
  | root => simpa using h.root_mem
  | child _ hchild ih => simpa using h.closed _ ih _ hchild

end Walked

/-- As long as nodes are pending, each step meets one. -/
theorem length_preorderFrom {steps : Nat} {pending : List NodeId}
    (h : arena.pendingAfter steps pending ≠ []) :
    (arena.preorderFrom steps pending).length = steps := by
  induction steps generalizing pending with
  | zero => rfl
  | succ steps ih =>
      cases pending with
      | nil => exact absurd rfl h
      | cons id pending => rw [preorderFrom, List.length_cons, ih h]

/-- No more steps than the arena has nodes are needed. -/
theorem IsTree.pendingAfter_size (h : arena.IsTree root) :
    arena.pendingAfter arena.size [root] = [] := by
  have hlength := ((walked_start arena root).run h arena.size).length_le h
  rw [List.nil_append] at hlength
  cases hpending : arena.pendingAfter arena.size [root] with
  | nil => rfl
  | cons id pending =>
      rw [length_preorderFrom (hpending ▸ List.cons_ne_nil id pending), hpending,
        List.length_cons] at hlength
      omega

namespace Traversal

variable {roots roots' nodes nodes' : List NodeId}

theorem split (h : arena.Traversal (roots ++ roots') nodes) :
    ∃ front back, arena.Traversal roots front ∧ arena.Traversal roots' back ∧
      nodes = front ++ back := by
  induction roots generalizing nodes with
  | nil => exact ⟨[], nodes, .nil, h, rfl⟩
  | cons id roots ih =>
      cases h with
      | @cons _ _ below _ hbelow hbeside =>
          obtain ⟨front, back, hfront, hback, rfl⟩ := ih hbeside
          exact ⟨_, back, .cons hbelow hfront, hback, by simp⟩

/-- Where the walk comes to an end, it has met what the traversal lists. -/
theorem of_pendingAfter {steps : Nat} {pending : List NodeId}
    (h : arena.pendingAfter steps pending = []) :
    arena.Traversal pending (arena.preorderFrom steps pending) := by
  induction steps generalizing pending with
  | zero =>
      rw [show pending = [] from h]
      exact .nil
  | succ steps ih =>
      cases pending with
      | nil => exact .nil
      | cons id pending =>
          obtain ⟨below, beside, hbelow, hbeside, heq⟩ := (ih h).split
          rw [preorderFrom, heq]
          exact .cons hbelow hbeside

theorem unique (h : arena.Traversal roots nodes) (h' : arena.Traversal roots nodes') :
    nodes' = nodes := by
  rw [← h.preorderFrom_eq (Nat.le_max_left _ nodes'.length),
    h'.preorderFrom_eq (Nat.le_max_right nodes.length _)]

/-- The walk takes as many steps as there are nodes. -/
theorem pendingAfter_eq_nil_iff (h : arena.Traversal roots nodes) (steps : Nat) :
    arena.pendingAfter steps roots = [] ↔ nodes.length ≤ steps := by
  induction steps generalizing roots nodes with
  | zero =>
      rw [pendingAfter, Nat.le_zero, List.length_eq_zero_iff]
      cases h with
      | nil => exact Iff.rfl
      | cons => exact ⟨nofun, nofun⟩
  | succ steps ih =>
      cases h with
      | nil => exact ⟨fun _ => Nat.zero_le _, fun _ => rfl⟩
      | cons hbelow hbeside =>
          rw [pendingAfter, ih (hbelow.append hbeside), List.length_cons, Nat.succ_le_succ_iff]

end Traversal
/-- The whole walk: when it comes to an end it has met the nodes of the tree. -/
theorem IsTree.walked (h : arena.IsTree root) : arena.Walked root (arena.preorder root) [] := by
  have hrun := (walked_start arena root).run h arena.size
  rw [h.pendingAfter_size, List.nil_append] at hrun
  exact hrun

/-- Nodes that have no children but each other make a tree where the other conditions hold of
all of them. -/
theorem isTree_of_closed (ids : List NodeId) (hroot : root ∈ ids)
    (hclosed : ∀ parent ∈ ids, ∀ id ∈ arena.children parent, id ∈ ids)
    (hbounded : ∀ id ∈ ids, id.index < arena.size)
    (horphan : ∀ parent ∈ ids, root ∉ arena.children parent)
    (hnodup : ∀ parent ∈ ids, (arena.children parent).Nodup)
    (hunique : ∀ parent ∈ ids, ∀ parent' ∈ ids, ∀ id ∈ arena.children parent,
      id ∈ arena.children parent' → parent = parent') : arena.IsTree root := by
  have hmem (id : NodeId) (h : arena.Reachable root id) : id ∈ ids := by
    induction h with
    | root => exact hroot
    | child _ hchild ih => exact hclosed _ ih _ hchild
  refine ⟨fun id hid => hbounded id (hmem id hid), fun id hid => horphan id (hmem id hid),
    fun id hid => hnodup id (hmem id hid), fun parent parent' id hparent hparent' => ?_⟩
  exact hunique parent (hmem parent hparent) parent' (hmem parent' hparent') id

/-- The sum of a negated number and a number, its nodes in no order of the tree, and a node beside
it that has the sum as its child. -/
def unordered : Arena where
  nodes := #[⟨.number 3, .nowhere⟩, ⟨.binary .add ⟨2⟩ ⟨0⟩, .nowhere⟩,
    ⟨.unary .negate ⟨4⟩, .nowhere⟩, ⟨.unary .negate ⟨1⟩, .nowhere⟩, ⟨.number 5, .nowhere⟩]

theorem isTree_unordered : unordered.IsTree ⟨1⟩ := by
  apply isTree_of_closed ([1, 2, 4, 0].map NodeId.mk) <;> decide

end Arena

namespace Source

variable {source : Source}

/-- `source.Climbs id path`: from the parent of a node upwards to the root stand the nodes of
`path`, which is empty for the root itself. -/
inductive Climbs (source : Source) : NodeId → List NodeId → Prop
  | root : source.Climbs source.root []
  | step {id parent path} : source.parent? id = some parent → source.Climbs parent path →
      source.Climbs id (parent :: path)

namespace Climbs

variable {id : NodeId} {path path' : List NodeId}

theorem unique (hroot : source.parent? source.root = none) (h : source.Climbs id path)
    (h' : source.Climbs id path') : path' = path := by
  induction h generalizing path' with
  | root =>
      cases h' with
      | root => rfl
      | step hparent => rw [hroot] at hparent; cases hparent
  | step hparent _ ih =>
      cases h' with
      | root => rw [hroot] at hparent; cases hparent
      | step hparent' hpath' =>
          obtain rfl := Option.some.inj (hparent.symm.trans hparent')
          rw [ih hpath']

/-- The path from each node that a path meets is the rest of that path. -/
theorem of_mem (h : source.Climbs id path) {ancestor : NodeId} (hmem : ancestor ∈ path) :
    ∃ above, source.Climbs ancestor above ∧ above.length < path.length := by
  induction h with
  | root => cases hmem
  | @step id parent path hparent hpath ih =>
      rcases List.mem_cons.mp hmem with rfl | hrest
      · exact ⟨path, hpath, Nat.lt_succ_self _⟩
      · obtain ⟨above, habove, hlt⟩ := ih hrest
        exact ⟨above, habove, Nat.lt_succ_of_lt hlt⟩

/-- A path upwards does not come back to where it has been. -/
theorem nodup (hroot : source.parent? source.root = none) (h : source.Climbs id path) :
    (id :: path).Nodup := by
  induction h with
  | root => exact List.nodup_cons.mpr ⟨List.not_mem_nil, List.nodup_nil⟩
  | @step id parent path hparent hpath ih =>
      refine List.nodup_cons.mpr ⟨fun hmem => ?_, ih⟩
      obtain ⟨above, habove, hlt⟩ := (step hparent hpath).of_mem hmem
      rw [(step hparent hpath).unique hroot habove] at hlt
      exact Nat.lt_irrefl _ hlt

theorem ancestorsUpTo_eq (hroot : source.parent? source.root = none) (h : source.Climbs id path)
    {budget : Nat} (hbudget : path.length ≤ budget) : source.ancestorsUpTo budget id = path := by
  induction h generalizing budget with
  | root => cases budget <;> simp only [ancestorsUpTo, hroot]
  | step hparent _ ih =>
      cases budget with
      | zero => exact absurd hbudget (Nat.not_succ_le_zero _)
      | succ budget =>
          rw [ancestorsUpTo, hparent]
          exact congrArg _ (ih (Nat.le_of_succ_le_succ hbudget))

end Climbs

/-- The index of a source is its tree. -/
structure IndexesTree (source : Source) : Prop where
  /-- The walk over the pending nodes comes to an end, after one step for each node. -/
  ends : ∀ steps, source.arena.pendingAfter steps [source.root] = [] ↔ source.size ≤ steps
  /-- However many more steps it were allowed, it meets the nodes of the index. -/
  walk : ∀ steps, source.size ≤ steps →
    source.arena.preorderFrom steps [source.root] = source.nodes
  /-- The children of a node are those that its kind lists, in the order in which it lists them. -/
  placed : ∀ id, source.children id =
    (source.arena.placements (source.kind id)).map Prod.snd
  /-- A structure has its inputs before its body. -/
  inputsFirst : ∀ id definition, source.kind id = .structureDef definition →
    source.children id = source.list definition.inputs ++ definition.body.toList
  /-- The nodes are what the recursion over the tree lists, and it lists nothing else. -/
  traversal : ∀ nodes, source.arena.Traversal [source.root] nodes ↔ nodes = source.nodes
  nodup : source.nodes.Nodup
  mem_nodes : ∀ id, id ∈ source.nodes ↔ source.arena.Reachable source.root id
  parent_eq_some : ∀ id parent, source.parent? id = some parent ↔
    source.arena.Reachable source.root parent ∧ id ∈ source.children parent
  parent_root : source.parent? source.root = none
  parent_unreachable : ∀ id, ¬ source.arena.Reachable source.root id → source.parent? id = none
  /-- The ancestors are the path to the root, and on it stands no node twice. -/
  ancestors : ∀ id, source.arena.Reachable source.root id →
    source.Climbs id (source.ancestors id) ∧ (id :: source.ancestors id).Nodup

/-- The paths to the root: there is one from each node that can be reached, over nodes that can be
reached. -/
theorem exists_climbs
    (hparent : ∀ id parent, source.parent? id = some parent ↔
      source.arena.Reachable source.root parent ∧ id ∈ source.children parent)
    {id : NodeId} (h : source.arena.Reachable source.root id) :
    ∃ path, source.Climbs id path ∧
      ∀ ancestor ∈ path, source.arena.Reachable source.root ancestor := by
  induction h with
  | root => exact ⟨[], .root, nofun⟩
  | @child parent id hreachable hchild ih =>
      obtain ⟨path, hpath, hall⟩ := ih
      refine ⟨parent :: path, .step ((hparent id parent).mpr ⟨hreachable, hchild⟩) hpath, ?_⟩
      exact List.forall_mem_cons.mpr ⟨hreachable, hall⟩

/-- Whatever else an arena holds and however it numbers its nodes, the index that is made from a
root is that of the tree under it. -/
theorem indexesTree_ofArena (name text : String) {arena : Arena} {root : NodeId}
    (h : arena.IsTree root) (interner : Interner) :
    (ofArena name text arena root interner).IndexesTree := by
  have hwalked := h.walked
  have hlist : arena.Traversal [root] (arena.preorder root) :=
    .of_pendingAfter h.pendingAfter_size
  have hmem (id : NodeId) : id ∈ arena.preorder root ↔ arena.Reachable root id :=
    ⟨fun hid => hwalked.reachable id (List.mem_append_left _ hid), hwalked.mem_of_reachable⟩
  have hnodup : (arena.preorder root).Nodup := by
    simpa only [List.append_nil] using hwalked.nodup
  have hindexed := indexed_ofArena name text interner hlist hnodup
    fun id hid => h.bounded id ((hmem id).mp hid)
  have hparent (id parent : NodeId) : (ofArena name text arena root interner).parent? id =
      some parent ↔ arena.Reachable root parent ∧ id ∈ arena.children parent := by
    rw [hindexed.parent?_eq_some_iff]
    exact and_congr_left fun _ => hmem parent
  have hnone (id : NodeId) (hid : ¬ arena.Reachable root id) :
      (ofArena name text arena root interner).parent? id = none := by
    cases hfind : (ofArena name text arena root interner).parent? id with
    | none => rfl
    | some parent =>
        obtain ⟨hreachable, hchild⟩ := (hparent id parent).mp hfind
        exact absurd (.child hreachable hchild) hid
  have hpaths (id : NodeId) (hid : arena.Reachable root id) :
      (ofArena name text arena root interner).Climbs id
          ((ofArena name text arena root interner).ancestors id) ∧
        (id :: (ofArena name text arena root interner).ancestors id).Nodup := by
    obtain ⟨path, hpath, hall⟩ := exists_climbs hparent hid
    have hdistinct := hpath.nodup hindexed.parent?_root
    have hlength : (id :: path).length ≤ arena.size :=
      Arena.length_le_of_nodup hdistinct fun node hnode => h.bounded node <| by
        rcases List.mem_cons.mp hnode with rfl | hrest
        · exact hid
        · exact hall node hrest
    have heq : (ofArena name text arena root interner).ancestors id = path :=
      hpath.ancestorsUpTo_eq hindexed.parent?_root (Nat.le_of_succ_le hlength)
    rw [heq]
    exact ⟨hpath, hdistinct⟩
  exact {
    ends := hlist.pendingAfter_eq_nil_iff
    walk := fun _ => hlist.preorderFrom_eq
    placed := Arena.children_eq_map_placements
    inputsFirst := fun id definition hkind => by
      rw [children, Arena.children, show (Arena.node _ id).kind = _ from hkind]
      rfl
    traversal := fun nodes => ⟨hlist.unique, fun heq => heq ▸ hlist⟩
    nodup := hnodup
    mem_nodes := hmem
    parent_eq_some := hparent
    parent_root := hindexed.parent?_root
    parent_unreachable := hnone
    ancestors := hpaths }

/-- The root is the second node of the arena, and the fourth cannot be reached. -/
theorem indexesTree_unordered : Arena.unordered.IsTree ⟨1⟩ ∧
    (ofArena "" "" .unordered ⟨1⟩ .empty).IndexesTree ∧
    (ofArena "" "" .unordered ⟨1⟩ .empty).nodes = [⟨1⟩, ⟨2⟩, ⟨4⟩, ⟨0⟩] ∧
    [0, 1, 2, 3, 4].map (fun index => (ofArena "" "" .unordered ⟨1⟩ .empty).parent? ⟨index⟩) =
      [some ⟨1⟩, none, some ⟨1⟩, none, some ⟨2⟩] :=
  ⟨Arena.isTree_unordered, indexesTree_ofArena "" "" Arena.isTree_unordered .empty, by decide,
    by decide⟩

end Source
end Bindery
