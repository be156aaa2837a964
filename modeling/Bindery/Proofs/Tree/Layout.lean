import Bindery.Proofs.Scope.Rules
import Bindery.Proofs.Tree.Windows

/-!
The layout of the source of a text. Its nodes are numbered in post-order and stand under the root,
each in one place; their lists of children share out the flat list; and what may stand at a place
stands there and nowhere else.
-/

namespace Bindery

namespace Arena

variable {arena : Arena}

/-- `arena.PostOrder roots nodes`: the nodes under the roots are `nodes`, each after what is under
it and the first root's first. -/
inductive PostOrder (arena : Arena) : List NodeId → List NodeId → Prop
  | nil : arena.PostOrder [] []
  | cons {id roots below beside} : arena.PostOrder (arena.children id) below →
      arena.PostOrder roots beside → arena.PostOrder (id :: roots) (below ++ id :: beside)

theorem Interval.postOrder {low high : Nat} {ids : List NodeId}
    (h : arena.Interval low ids high) :
    arena.PostOrder ids ((List.range' low (high - low)).map NodeId.mk) := by
  induction h with
  | @nil low =>
      rw [Nat.sub_self]
      exact .nil
  | @cons low id ids high below beside ihbelow ihbeside =>
      have hlow := below.le
      have hhigh := beside.le
      have hrange : List.range' low (high - low) =
          List.range' low (id.index - low) ++
            id.index :: List.range' (id.index + 1) (high - (id.index + 1)) := by
        rw [← List.range'_succ, ← Nat.add_sub_of_le hlow, Nat.add_sub_cancel_left,
          List.range'_append_1]
        congr 1
        omega
      rw [hrange, List.map_append, List.map_cons]
      exact .cons ihbelow ihbeside

theorem Interval.ascending {low high : Nat} {ids : List NodeId}
    (h : arena.Interval low ids high) : ids.Pairwise fun id id' => id.index < id'.index := by
  induction h with
  | nil => exact .nil
  | cons _ beside _ ih => exact .cons (fun id hid => (beside.bounds hid).1) ih

theorem exists_mem_placements {parent id : NodeId} (hid : id ∈ arena.children parent) :
    ∃ place, (place, id) ∈ arena.placements (arena.kind parent) := by
  rw [children_eq_map_placements] at hid
  obtain ⟨⟨place, _⟩, hplaced, rfl⟩ := List.mem_map.mp hid
  exact ⟨place, hplaced⟩

theorem block_of_statement {kind : NodeKind} {id : NodeId}
    (h : (Place.statement, id) ∈ arena.placements kind) :
    ∃ statements, kind = .block statements ∧ id ∈ arena.list statements := by
  cases kind with
  | block statements => exact ⟨statements, rfl, by simpa [placements] using h⟩
  | bind | structureDef | property | memberName | reference | evaluate | number | text | boolean
  | binary | unary | conditional => simp [placements] at h

theorem structureDef_of_input {kind : NodeKind} {id : NodeId}
    (h : (Place.input, id) ∈ arena.placements kind) :
    ∃ definition, kind = .structureDef definition ∧ id ∈ arena.list definition.inputs := by
  cases kind with
  | structureDef definition => exact ⟨definition, rfl, by simpa [placements] using h⟩
  | block | bind | property | memberName | reference | evaluate | number | text | boolean
  | binary | unary | conditional => simp [placements] at h

theorem property_of_member {kind : NodeKind} {id : NodeId}
    (h : (Place.member, id) ∈ arena.placements kind) :
    ∃ subject, kind = .property subject id := by
  cases kind with
  | property subject member =>
      obtain rfl : id = member := by simpa [placements] using h
      exact ⟨subject, rfl⟩
  | block | bind | structureDef | memberName | reference | evaluate | number | text | boolean
  | binary | unary | conditional => simp [placements] at h

end Arena

namespace Source

variable {source : Source}

/-- The numbers are the post-order of the tree, and every number that is given out is in the
tree. -/
structure Numbered (source : Source) : Prop where
  order : source.arena.PostOrder [source.root]
    ((List.range source.arena.size).map NodeId.mk)
  /-- A node and what is under it have the numbers of one interval, which ends with the node. -/
  subtree : ∀ id, id.index < source.arena.size → ∃ first, first ≤ id.index ∧
    ∀ node, node = id ∨ source.Under id node ↔ first ≤ node.index ∧ node.index ≤ id.index
  ascending : ∀ id, (source.children id).Pairwise fun child child' => child.index < child'.index
  member : ∀ id subject member, source.kind id = .property subject member →
    member.index = subject.index + 1 ∧ id.index = member.index + 1
  reachable : ∀ id, id.index < source.arena.size ↔ id = source.root ∨ source.Under source.root id
  listed : ∀ id, id ∈ source.nodes ↔ id.index < source.arena.size
  size_eq : source.size = source.arena.size
  root_last : source.root.index + 1 = source.arena.size
  root_top : ∀ parent, source.root ∉ source.children parent
  parent : ∀ id, id.index < source.arena.size → id ≠ source.root →
    ∃ parent, ∀ other, id ∈ source.children other ↔ other = parent

/-- Each kind of node stands where it may, and where a kind is asked for, no other kind stands. -/
structure Placed (source : Source) : Prop where
  root : ∃ statements, source.kind source.root = .block statements
  member : ∀ id subject member, source.kind id = .property subject member →
    ∃ name, source.kind member = .memberName name
  input : ∀ id definition, source.kind id = .structureDef definition →
    ∀ input ∈ source.list definition.inputs, ∃ bind, source.kind input = .bind bind
  body : ∀ id definition, source.kind id = .structureDef definition →
    ∀ body, definition.body = some body → ∃ statements, source.kind body = .block statements
  ofMemberName : ∀ id name, source.kind id = .memberName name →
    ∀ parent, id ∈ source.children parent →
      ∃ subject, subject ≠ id ∧ source.kind parent = .property subject id
  ofBind : ∀ id bind, source.kind id = .bind bind → ∀ parent, id ∈ source.children parent →
    (∃ statements, source.kind parent = .block statements ∧ id ∈ source.list statements ∧
        bind.value.isSome = true) ∨
      ∃ definition, source.kind parent = .structureDef definition ∧
        id ∈ source.list definition.inputs
  ofStructureDef : ∀ id definition, source.kind id = .structureDef definition →
    ∀ parent, id ∈ source.children parent →
      ∃ statements, source.kind parent = .block statements ∧ id ∈ source.list statements

namespace WellFormed

variable {parent id : NodeId}

theorem under_iff_of_interval (h : source.WellFormed) {first : Nat}
    (hinterval : source.arena.Interval first (source.children id) id.index) {node : NodeId} :
    source.Under id node ↔ first ≤ node.index ∧ node.index < id.index := by
  refine ⟨fun hunder => ⟨le_index_of_under hinterval hunder, h.index_lt_of_under hunder⟩,
    fun ⟨hlow, hhigh⟩ => ?_⟩
  exact hinterval.top_down (fun child hchild => .of_child hchild)
    (fun parent child hchild hunder => hunder.further hchild) node hlow hhigh

theorem root_interval (h : source.WellFormed) :
    source.arena.Interval 0 (source.children source.root) source.root.index ∧
      source.root.index + 1 = source.arena.size := by
  cases h.interval with
  | cons below beside =>
      have hhigh : source.root.index + 1 = source.arena.size := by
        generalize source.root.index + 1 = low at beside
        cases beside with
        | nil => rfl
      exact ⟨below, hhigh⟩

theorem subtree (h : source.WellFormed) (hid : id.index < source.arena.size) :
    ∃ first, first ≤ id.index ∧
      ∀ node, node = id ∨ source.Under id node ↔ first ≤ node.index ∧ node.index ≤ id.index := by
  obtain ⟨first, -, hinterval⟩ := h.interval.children (Nat.zero_le _) hid
  have hle := hinterval.le
  refine ⟨first, hle, fun node => ?_⟩
  rw [h.under_iff_of_interval hinterval, NodeId.ext_iff]
  omega

theorem ascending (h : source.WellFormed) (id : NodeId) :
    (source.children id).Pairwise fun child child' => child.index < child'.index := by
  by_cases hid : id.index < source.arena.size
  · obtain ⟨first, -, hinterval⟩ := h.interval.children (Nat.zero_le _) hid
    exact hinterval.ascending
  · rw [List.eq_nil_iff_forall_not_mem.mpr fun child hchild =>
      hid (lt_size_of_mem_children hchild)]
    exact .nil

/-- The name in a property access has the number between its subject and the access. -/
theorem member_between (h : source.WellFormed) {subject member : NodeId}
    (hkind : source.kind id = .property subject member) :
    member.index = subject.index + 1 ∧ id.index = member.index + 1 := by
  have hplaced : (Place.member, member) ∈ source.arena.placements (source.kind id) := by
    simp [hkind, Arena.placements]
  have hchildren : source.children id = [subject, member] := by
    simp only [children, Arena.children, show (source.arena.node id).kind = _ from hkind]
  have hnone : source.arena.children member = [] := by
    obtain ⟨name, hmember⟩ := NodeKind.exists_memberName_of_member (h.admits_of_placed hplaced)
    refine List.eq_nil_iff_forall_not_mem.mpr fun child hchild => shape_of_mem_children hchild ?_
    rw [hmember]
    rfl
  obtain ⟨first, hinterval⟩ := h.interval_children (mem_children_of_placed hplaced)
  rw [hchildren] at hinterval
  generalize hhigh : id.index = high at hinterval
  cases hinterval with
  | cons _ hmember =>
      cases hmember with
      | cons below hend =>
          cases hend
          rw [hnone] at below
          generalize hlow : subject.index + 1 = low at below
          generalize member.index = middle at below ⊢
          cases below
          exact ⟨rfl, rfl⟩

theorem exists_unique_parent (h : source.WellFormed) (hid : id.index < source.arena.size)
    (hroot : id ≠ source.root) :
    ∃ parent, ∀ other, id ∈ source.children other ↔ other = parent := by
  obtain ⟨hinterval, hlast⟩ := h.root_interval
  have hne : id.index ≠ source.root.index := fun heq => hroot (NodeId.ext heq)
  have hlt : id.index < source.root.index := by omega
  have hunder := (h.under_iff_of_interval hinterval).mpr ⟨Nat.zero_le _, hlt⟩
  obtain ⟨child, between, hchild, hleads⟩ := hunder
  obtain ⟨parent, hparent⟩ : ∃ parent, id ∈ source.children parent := by
    rcases hleads.last with ⟨rfl, -⟩ | ⟨_, parent, -, -, hparent⟩
    · exact ⟨_, hchild⟩
    · exact ⟨parent, hparent⟩
  refine ⟨parent, fun other => ⟨fun hother => ?_, fun heq => heq ▸ hparent⟩⟩
  have hsome := h.parent?_eq_some.mpr hparent
  rw [h.parent?_eq_some.mpr hother] at hsome
  exact Option.some.inj hsome

theorem numbered (h : source.WellFormed) : source.Numbered := by
  obtain ⟨hinterval, hlast⟩ := h.root_interval
  have hreachable (id : NodeId) : id.index < source.arena.size ↔
      id = source.root ∨ source.Under source.root id := by
    rw [h.under_iff_of_interval hinterval, NodeId.ext_iff]
    omega
  refine ⟨?_, fun id => h.subtree, h.ascending, fun id subject member => h.member_between,
    hreachable, fun id => h.mem_nodes_iff, ?_, hlast, fun parent hparent => ?_,
    fun id => h.exists_unique_parent⟩
  · have horder := h.interval.postOrder
    rw [Nat.sub_zero, ← List.range_eq_range'] at horder
    exact horder
  · obtain ⟨nodes, htraversal, hnodup, hmem⟩ := h.interval.traversal
    have hperm : source.nodes.Perm ((List.range source.arena.size).map NodeId.mk) := by
      refine (List.perm_ext_iff_of_nodup h.nodup ?_).mpr fun id => ?_
      · exact List.pairwise_map.mpr (List.nodup_range.imp fun hne heq => hne (NodeId.mk.inj heq))
      · rw [h.mem_nodes_iff, List.mem_map]
        refine ⟨fun hid => ⟨id.index, List.mem_range.mpr hid, rfl⟩, ?_⟩
        rintro ⟨index, hindex, rfl⟩
        exact List.mem_range.mp hindex
    rw [Source.size, hperm.length_eq, List.length_map, List.length_range]
  · have hlt := h.index_lt_of_mem_children hparent
    have hsize := lt_size_of_mem_children hparent
    omega

theorem placed (h : source.WellFormed) : source.Placed := by
  have admits {parent id : NodeId} (hid : id ∈ source.children parent) :
      ∃ place, (place, id) ∈ source.arena.placements (source.kind parent) ∧
        place.admits (source.kind id).shape = true := by
    obtain ⟨place, hplaced⟩ := Arena.exists_mem_placements hid
    exact ⟨place, hplaced, h.admits_of_placed hplaced⟩
  refine ⟨h.root_kind, fun id subject member hkind => ?_,
    fun id definition hkind input hinput => ?_,
    fun id definition hkind body hbody => ?_, fun id name hkind parent hid => ?_,
    fun id bind hkind parent hid => ?_, fun id definition hkind parent hid => ?_⟩
  · have hplaced : (Place.member, member) ∈ source.arena.placements (source.kind id) := by
      simp [hkind, Arena.placements]
    exact NodeKind.exists_memberName_of_member (h.admits_of_placed hplaced)
  · have hplaced : (Place.input, input) ∈ source.arena.placements (source.kind id) := by
      rw [hkind]
      exact List.mem_append_left _ (List.mem_map.mpr ⟨input, hinput, rfl⟩)
    exact NodeKind.exists_bind_of_input (h.admits_of_placed hplaced)
  · have hplaced : (Place.body, body) ∈ source.arena.placements (source.kind id) := by
      simp [hkind, Arena.placements, hbody]
    exact NodeKind.exists_block_of_body (h.admits_of_placed hplaced)
  · obtain ⟨place, hplaced, hadmits⟩ := admits hid
    rw [hkind] at hadmits
    cases place with
    | member =>
        obtain ⟨subject, hparent⟩ := Arena.property_of_member hplaced
        have hbetween := (h.member_between hparent).1
        exact ⟨subject, fun heq => by rw [heq] at hbetween; omega, hparent⟩
    | statement | input | body | expression => cases hadmits
  · obtain ⟨place, hplaced, hadmits⟩ := admits hid
    rw [hkind] at hadmits
    cases place with
    | statement =>
        obtain ⟨statements, hparent, hmem⟩ := Arena.block_of_statement hplaced
        have hvalue : bind.value.isSome = true := by
          cases hsome : bind.value.isSome with
          | true => rfl
          | false => simp [NodeKind.shape, hsome, Place.admits] at hadmits
        exact .inl ⟨statements, hparent, hmem, hvalue⟩
    | input => exact .inr (Arena.structureDef_of_input hplaced)
    | member | body | expression => cases hadmits
  · obtain ⟨place, hplaced, hadmits⟩ := admits hid
    rw [hkind] at hadmits
    cases place with
    | statement => exact Arena.block_of_statement hplaced
    | input | member | body | expression => cases hadmits

end WellFormed

/-- The source of a text is numbered in post-order without gaps and without nodes outside the tree,
its lists of children share out the flat list, and its nodes stand where their kinds may. -/
theorem layout_of_parse {name text : String} {interner : Interner}
    (h : (parse name text interner).1 = .ok source) :
    source.Numbered ∧ source.arena.Partitioned ∧ source.Placed := by
  have hsource := wellFormed_of_parse h
  obtain ⟨-, mark, statements, -, -, rfl⟩ := parse_eq_ok_iff.mp h
  have hpartitioned := (Phrase.block ⟨0, mark.offset⟩ statements).partitioned_numbered
  exact ⟨hsource.numbered, hpartitioned, hsource.placed⟩

/-- A structure with an input that has no value, a default, a body and a property access. -/
theorem layout_of_parse_of_structure :
    ∃ source,
      (parse "<code>" "a: 1\n•P(x y: 2) (z: y\nz)\nP(a).z" .empty).1 = .ok source ∧
      source.Numbered ∧ source.arena.Partitioned ∧ source.Placed := by
  obtain ⟨source, h⟩ : ∃ source,
      (parse "<code>" "a: 1\n•P(x y: 2) (z: y\nz)\nP(a).z" .empty).1 = .ok source :=
    exists_of_isOk (by decide +kernel)
  exact ⟨source, h, layout_of_parse h⟩

end Source
end Bindery
