import Bindery.Proofs.Scope.Visible
import Bindery.Proofs.Tree.Grouping

/-!
Parentheses and scopes. A block around an expression is one more level of scope, in which nothing is
defined. So at every node the same definitions are visible as before, under the numbers that they
have got, and every name refers to the same one.
-/

namespace Bindery

/-- The definition under another number. -/
def Definition.moved (move : NodeId → NodeId) : Definition → Definition
  | .bind id => .bind (move id)
  | .structureDef id => .structureDef (move id)

theorem Definition.node_moved (move : NodeId → NodeId) (definition : Definition) :
    (definition.moved move).node = move definition.node := by
  cases definition <;> rfl

def Visibility.moved (move : NodeId → NodeId) : Visibility → Visibility
  | .collect statements => .collect (statements.map move)
  | .proceed => .proceed
  | .stop inputs => .stop (inputs.map move)
  | .hidden => .hidden

/-- The same levels of moved definitions, with empty levels among them. -/
inductive Padded (move : NodeId → NodeId) :
    List (List Definition) → List (List Definition) → Prop
  | nil : Padded move [] []
  | cons {level levels levels'} : Padded move levels levels' →
      Padded move (level :: levels) (level.map (.moved move) :: levels')
  | blank {levels levels'} : Padded move levels levels' → Padded move levels ([] :: levels')

theorem Padded.flatten_eq {move : NodeId → NodeId} {levels levels' : List (List Definition)}
    (h : Padded move levels levels') :
    levels'.flatten = levels.flatten.map (.moved move) := by
  induction h with
  | nil => rfl
  | cons _ ih => rw [List.flatten_cons, List.flatten_cons, List.map_append, ih]
  | blank _ ih => rw [List.flatten_cons, List.nil_append, ih]

/-- Where a definition passes a test if it passes another one after it has moved, the same one is
found in the levels. -/
theorem Padded.findSome?_eq {move : NodeId → NodeId} {levels levels' : List (List Definition)}
    (h : Padded move levels levels') {test test' : Definition → Bool}
    (htest : ∀ definition, test' (definition.moved move) = test definition) :
    levels'.findSome? (fun level => level.reverse.find? test') =
      (levels.findSome? fun level => level.reverse.find? test).map (.moved move) := by
  have htests : (test' ∘ Definition.moved move) = test := funext htest
  induction h with
  | nil => rfl
  | @cons level levels levels' _ ih =>
      rw [List.findSome?_cons, List.findSome?_cons, ih, ← List.map_reverse, List.find?_map, htests]
      cases level.reverse.find? test <;> rfl
  | blank _ ih => exact ih

namespace Source
namespace GroupedAt

variable {source source' : Source} {inner : NodeId} (h : source.GroupedAt source' inner)
include h

/-- What stands for the expression is a block with nothing else in it. -/
theorem outer : ∃ range, source'.kind inner.outer = .block range ∧
    source'.list range = [inner] := by
  obtain ⟨range, hkind, -, hlist⟩ := h.arena.outer
  exact ⟨range, hkind, hlist⟩

theorem children_outer : source'.children inner.outer = [inner] := by
  obtain ⟨range, hkind, hlist⟩ := h.outer
  rw [WellFormed.children_of_block hkind, hlist]

theorem children_past (id : NodeId) :
    source'.children (inner.past id) = (source.children id).map inner.listed := by
  have hkind := h.kind id
  have hpart {id : NodeId} (hne : id ≠ inner) : inner.past id = inner.listed id :=
    (NodeId.listed_of_ne hne).symm
  simp only [children, Arena.children]
  simp only [Source.kind, node] at hkind
  generalize (source.arena.node id).kind = kind,
    (source'.arena.node (inner.past id)).kind = kind' at hkind
  cases hkind with
  | block hwindow => exact hwindow.list_eq
  | @bind _ _ value _ hvalue =>
      rw [hvalue]
      cases value <;> rfl
  | @structureDef _ _ _ body _ hwindow hne hbody =>
      dsimp only
      rw [hbody, hwindow.list_eq, List.map_append]
      cases body with
      | none => rfl
      | some body =>
          have heq := hpart fun heq => hne (congrArg some heq)
          simp only [Option.map_some, Option.toList_some, List.map_cons, List.map_nil, heq]
  | property hsubject hne hmember =>
      rw [hsubject, hmember, hpart hne]
      rfl
  | evaluate hcallee hwindow =>
      dsimp only
      rw [hcallee, hwindow.list_eq, List.map_cons]
  | binary hleft hright => rw [hleft, hright]; rfl
  | unary hoperand => rw [hoperand]; rfl
  | conditional hcondition hyes hno => rw [hcondition, hyes, hno]; rfl
  | memberName | reference | number | text | boolean => rfl

theorem mem_children_past {parent id : NodeId} (hid : id ∈ source.children parent) :
    inner.listed id ∈ source'.children (inner.past parent) := by
  rw [h.children_past]
  exact List.mem_map_of_mem hid

/-- What had no parent has none. -/
theorem parent?_listed (hsource : source.WellFormed) (hsource' : source'.WellFormed) {id : NodeId}
    (hid : source.parent? id = none) : source'.parent? (inner.listed id) = none := by
  cases hparent : source'.parent? (inner.listed id) with
  | none => rfl
  | some parent =>
      have hmem := hsource'.parent?_eq_some.mp hparent
      have hself : inner.past inner = inner := NodeId.past_of_le (Nat.le_refl _)
      rcases NodeId.eq_outer_or_past inner parent with rfl | ⟨before, rfl⟩
      · -- The block has no child but the expression, and nothing is listed under that number.
        rw [h.children_outer, List.mem_singleton] at hmem
        by_cases hinner : id = inner
        · rw [hinner, NodeId.listed_self] at hmem
          exact absurd (hself.trans hmem.symm) NodeId.past_ne_outer
        · rw [NodeId.listed_of_ne hinner] at hmem
          exact absurd (NodeId.past_injective (hmem.trans hself.symm)) hinner
      · rw [h.children_past] at hmem
        obtain ⟨child, hchild, heq⟩ := List.mem_map.mp hmem
        rw [NodeId.listed_injective heq] at hchild
        rw [hsource.parent?_eq_some.mpr hchild] at hid
        cases hid

theorem visibility_listed (parent id : NodeId) :
    source'.visibility (inner.past parent) (inner.listed id) =
      (source.visibility parent id).moved inner.listed := by
  have htest : (fun other => other != inner.listed id) ∘ inner.listed =
      fun other => other != id := by
    funext other
    rw [Function.comp_apply, Bool.eq_iff_iff, bne_iff_ne, bne_iff_ne]
    exact not_congr ⟨NodeId.listed_injective, congrArg _⟩
  have htake (ids : List NodeId) : (ids.map inner.listed).takeWhile (· != inner.listed id) =
      (ids.takeWhile (· != id)).map inner.listed := by
    rw [List.takeWhile_map, htest]
  have hpart {other : NodeId} (hne : other ≠ inner) :
      inner.past other = inner.listed id ↔ other = id := by
    rw [← NodeId.listed_of_ne hne]
    exact ⟨NodeId.listed_injective, congrArg _⟩
  have hkind := h.kind parent
  simp only [visibility]
  generalize source.kind parent = kind, source'.kind (inner.past parent) = kind' at hkind
  cases hkind with
  | block hwindow =>
      simp only [list, hwindow.list_eq, htake, Visibility.moved]
  | @structureDef _ _ _ body _ hwindow hne hbody =>
      have hiff : Option.map inner.past body = some (inner.listed id) ↔ body = some id := by
        cases body with
        | none => simp only [Option.map_none, reduceCtorEq]
        | some body =>
            rw [Option.map_some, Option.some_inj, Option.some_inj]
            exact hpart fun heq => hne (congrArg some heq)
      simp only [list, hwindow.list_eq, htake, hbody, hiff]
      split <;> rfl
  | property _ hne hmember =>
      simp only [hmember, hpart hne]
      split <;> rfl
  | bind | memberName | reference | evaluate | number | text | boolean | binary | unary
  | conditional => rfl

theorem definedName?_past (id : NodeId) :
    source'.definedName? (inner.past id) = source.definedName? id := by
  have hkind := h.kind id
  simp only [definedName?]
  generalize source.kind id = kind, source'.kind (inner.past id) = kind' at hkind
  cases hkind <;> rfl

theorem definition?_past (id : NodeId) :
    source'.definition? (inner.past id) = (source.definition? id).map (.moved inner.past) := by
  have hkind := h.kind id
  simp only [definition?]
  generalize source.kind id = kind, source'.kind (inner.past id) = kind' at hkind
  cases hkind <;> rfl

/-- An expression defines nothing, and neither does the block around it. -/
theorem definition?_listed (id : NodeId) :
    source'.definition? (inner.listed id) = (source.definition? id).map (.moved inner.past) := by
  by_cases hinner : id = inner
  · obtain ⟨range, hkind, -⟩ := h.outer
    have hbind (bind : BindNode) : source.kind inner ≠ .bind bind :=
      NodeKind.ne_bind_of_expression h.arena.expression bind
    have hstructure (definition : StructureNode) : source.kind inner ≠ .structureDef definition :=
      NodeKind.ne_structureDef_of_expression h.arena.expression definition
    rw [hinner, NodeId.listed_self]
    simp only [definition?, hkind]
    rfl
  · rw [NodeId.listed_of_ne hinner, h.definition?_past]

theorem filterMap_definition?_listed (ids : List NodeId) :
    (ids.map inner.listed).filterMap source'.definition? =
      (ids.filterMap source.definition?).map (.moved inner.past) := by
  rw [List.filterMap_map, List.map_filterMap]
  exact congrArg (List.filterMap · ids) (funext h.definition?_listed)

variable (hsource : source.WellFormed) (hsource' : source'.WellFormed)
include hsource'

/-- Inside the block there is one level more than at the block itself. -/
theorem levelsAlong_past {id : NodeId}
    (hlisted : Option.Rel (Padded inner.past) (source.levelsAlong id (source.ancestors id))
      (source'.levelsAlong (inner.listed id) (source'.ancestors (inner.listed id)))) :
    Option.Rel (Padded inner.past) (source.levelsAlong id (source.ancestors id))
      (source'.levelsAlong (inner.past id) (source'.ancestors (inner.past id))) := by
  by_cases hinner : id = inner
  · obtain ⟨range, hkind, hlist⟩ := h.outer
    have hself : inner.past inner = inner := NodeId.past_of_le (Nat.le_refl _)
    have hmem : inner ∈ source'.children inner.outer := by
      rw [h.children_outer]
      exact List.mem_singleton.mpr rfl
    have honly : source'.list range = [] ++ inner :: [] := hlist
    have hvisibility := hsource'.visibility_statement hkind honly
    rw [hinner] at hlisted ⊢
    rw [NodeId.listed_self] at hlisted
    rw [hself, hsource'.levelsAlong_of_parent hmem, hvisibility]
    generalize source.levelsAlong inner (source.ancestors inner) = levels,
      source'.levelsAlong inner.outer (source'.ancestors inner.outer) = levels' at hlisted
    cases hlisted with
    | none => exact .none
    | some hpadded => exact .some (.blank hpadded)
  · rw [← NodeId.listed_of_ne hinner]
    exact hlisted

include hsource

theorem levelsAlong_listed :
    ∀ id, Option.Rel (Padded inner.past) (source.levelsAlong id (source.ancestors id))
      (source'.levelsAlong (inner.listed id) (source'.ancestors (inner.listed id))) := by
  refine hsource.top_down (fun id hparent => ?_) fun parent id hid ih => ?_
  · rw [WellFormed.ancestors_of_parent?_eq_none hparent,
      WellFormed.ancestors_of_parent?_eq_none (h.parent?_listed hsource hsource' hparent)]
    exact .some .nil
  · have hparent := h.levelsAlong_past hsource' ih
    rw [hsource.levelsAlong_of_parent hid,
      hsource'.levelsAlong_of_parent (h.mem_children_past hid), h.visibility_listed]
    generalize source.levelsAlong parent (source.ancestors parent) = levels,
      source'.levelsAlong (inner.past parent) (source'.ancestors (inner.past parent)) = levels'
      at hparent
    cases source.visibility parent id with
    | collect statements =>
        simp only [Visibility.moved, h.filterMap_definition?_listed]
        cases hparent with
        | none => exact .none
        | some hpadded => exact .some (.cons hpadded)
    | proceed => exact hparent
    | stop inputs =>
        simp only [Visibility.moved, h.filterMap_definition?_listed]
        exact .some (.cons .nil)
    | hidden => exact .none

/-- The levels of scope at a node are those from before, with empty ones among them. -/
theorem padded_levels (id : NodeId) :
    Padded inner.past (source.levels id) (source'.levels (inner.past id)) := by
  have hrel := h.levelsAlong_past hsource' (h.levelsAlong_listed hsource hsource' id)
  rw [levels, levels]
  generalize source.levelsAlong id (source.ancestors id) = levels,
    source'.levelsAlong (inner.past id) (source'.ancestors (inner.past id)) = levels' at hrel
  cases hrel with
  | none => exact .nil
  | some hpadded => exact hpadded

theorem definitionsInScope_past (id : NodeId) :
    source'.definitionsInScope (inner.past id) =
      (source.definitionsInScope id).map (.moved inner.past) :=
  (h.padded_levels hsource hsource' id).flatten_eq

theorem definitionOf?_past (id : NodeId) (name : Name) :
    source'.definitionOf? (inner.past id) name =
      (source.definitionOf? id name).map (.moved inner.past) := by
  refine (h.padded_levels hsource hsource' id).findSome?_eq fun definition => ?_
  rw [Definition.node_moved, h.definedName?_past]

theorem definitionNamed?_past (id : NodeId) (s : String) :
    source'.definitionNamed? (inner.past id) s =
      (source.definitionNamed? id s).map (.moved inner.past) := by
  rw [definitionNamed?, definitionNamed?, h.interner]
  cases source.interner.get? s with
  | none => rfl
  | some name => exact h.definitionOf?_past hsource hsource' id name

end GroupedAt
end Source
end Bindery
