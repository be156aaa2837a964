import Bindery.Proofs.Grammar.Likeness
import Bindery.Scope

/-!
Alike trees. Alike phrases are numbered alike: their trees have the same numbers, the same lists of
children and the same index, and nodes that differ only as the phrases do. If names are told apart
alike, the same definitions are visible at every node, and a name refers to the same one.
-/

namespace Bindery
namespace Likeness

variable (like : Likeness)

inductive AlikeNodeKind : NodeKind → NodeKind → Prop
  | block {statements} : AlikeNodeKind (.block statements) (.block statements)
  | bind {name name' type type' value} : like.name name name' →
      Option.Rel like.AlikeType type type' →
      AlikeNodeKind (.bind ⟨name, type, value⟩) (.bind ⟨name', type', value⟩)
  | structureDef {name name' inputs body} : like.name name name' →
      AlikeNodeKind (.structureDef ⟨name, inputs, body⟩) (.structureDef ⟨name', inputs, body⟩)
  | property {subject member} :
      AlikeNodeKind (.property subject member) (.property subject member)
  | memberName {name name'} : like.name name name' →
      AlikeNodeKind (.memberName name) (.memberName name')
  | reference {name name'} : like.name name name' →
      AlikeNodeKind (.reference name) (.reference name')
  | evaluate {callee arguments} :
      AlikeNodeKind (.evaluate callee arguments) (.evaluate callee arguments)
  | number {bits} : AlikeNodeKind (.number bits) (.number bits)
  | text {content content'} : like.name content content' →
      AlikeNodeKind (.text content) (.text content')
  | boolean {value} : AlikeNodeKind (.boolean value) (.boolean value)
  | binary {op left right} : AlikeNodeKind (.binary op left right) (.binary op left right)
  | unary {op operand} : AlikeNodeKind (.unary op operand) (.unary op operand)
  | conditional {condition yes no} :
      AlikeNodeKind (.conditional condition yes no) (.conditional condition yes no)

structure AlikeNode (node node' : Node) : Prop where
  kind : like.AlikeNodeKind node.kind node'.kind
  span : like.AlikeSpan node.span node'.span

structure AlikeArena (arena arena' : Arena) : Prop where
  nodes : List.Forall₂ like.AlikeNode arena.nodes.toList arena'.nodes.toList
  lists : arena.lists = arena'.lists

/-- Steps of numbering come to the same, and leave alike arenas. -/
def AlikeNumbering {α : Type} (step step' : Numbering α) : Prop :=
  ∀ arena arena', like.AlikeArena arena arena' →
    (step arena).1 = (step' arena').1 ∧ like.AlikeArena (step arena).2 (step' arena').2

variable {like}

theorem AlikeArena.size_eq {arena arena' : Arena} (h : like.AlikeArena arena arena') :
    arena.size = arena'.size := h.nodes.length_eq

namespace AlikeNumbering

variable {α β : Type}

theorem pure (a : α) : like.AlikeNumbering (Pure.pure a) (Pure.pure a) :=
  fun _ _ harena => ⟨rfl, harena⟩

theorem bind {step step' : Numbering α} {next next' : α → Numbering β}
    (h : like.AlikeNumbering step step') (hnext : ∀ a, like.AlikeNumbering (next a) (next' a)) :
    like.AlikeNumbering (step >>= next) (step' >>= next') := by
  intro arena arena' harena
  obtain ⟨heq, hlater⟩ := h arena arena' harena
  have hbind (step : Numbering α) (next : α → Numbering β) (arena : Arena) :
      (step >>= next) arena = next (step arena).1 (step arena).2 := rfl
  rw [hbind, hbind, heq]
  exact hnext _ _ _ hlater

theorem add {kind kind' : NodeKind} {span span' : Span} (hkind : like.AlikeNodeKind kind kind')
    (hspan : like.AlikeSpan span span') :
    like.AlikeNumbering (Numbering.add kind span) (Numbering.add kind' span') := by
  intro arena arena' harena
  refine ⟨congrArg NodeId.mk harena.size_eq, ?_, harena.lists⟩
  simp only [Numbering.add, Arena.add, Array.toList_push]
  exact List.rel_append harena.nodes (.cons ⟨hkind, hspan⟩ .nil)

theorem addList (ids : List NodeId) :
    like.AlikeNumbering (Numbering.addList ids) (Numbering.addList ids) := by
  intro arena arena' harena
  refine ⟨?_, harena.nodes, ?_⟩ <;> simp only [Numbering.addList, Arena.addList, harena.lists]

mutual

/-- Alike phrases are numbered alike. -/
theorem phrase : (p p' : Phrase) → like.AlikePhrase p p' →
    like.AlikeNumbering (Numbering.phrase p) (Numbering.phrase p')
  | .block span statements, .block span' statements', h =>
      .bind (phrases statements statements' h.2) fun ids => .bind (.addList ids) fun _ =>
        .add .block h.1
  | .bind span name type value, .bind span' name' type' value', h =>
      .bind (phrase? value value' h.2.2.2) fun _ => .add (.bind h.2.1 h.2.2.1) h.1
  | .structureDef span name inputs body, .structureDef span' name' inputs' body', h =>
      .bind (phrases inputs inputs' h.2.2.1) fun ids => .bind (.addList ids) fun _ =>
        .bind (phrase? body body' h.2.2.2) fun _ => .add (.structureDef h.2.1) h.1
  | .property span subject member memberSpan, .property span' subject' member' memberSpan', h =>
      .bind (phrase subject subject' h.2.1) fun _ =>
        .bind (.add (.memberName h.2.2.1) h.2.2.2) fun _ => .add .property h.1
  | .reference span name, .reference span' name', h => .add (.reference h.2) h.1
  | .evaluate span callee arguments, .evaluate span' callee' arguments', h =>
      .bind (phrase callee callee' h.2.1) fun _ => .bind (phrases arguments arguments' h.2.2)
        fun ids => .bind (.addList ids) fun _ => .add .evaluate h.1
  | .number span bits, .number span' bits', h => by
      cases h.2
      exact .add .number h.1
  | .text span content, .text span' content', h => .add (.text h.2) h.1
  | .boolean span value, .boolean span' value', h => by
      cases h.2
      exact .add .boolean h.1
  | .binary span op left right, .binary span' op' left' right', h => by
      cases h.2.1
      exact .bind (phrase left left' h.2.2.1) fun _ =>
        .bind (phrase right right' h.2.2.2) fun _ => .add .binary h.1
  | .unary span op operand, .unary span' op' operand', h => by
      cases h.2.1
      exact .bind (phrase operand operand' h.2.2) fun _ => .add .unary h.1
  | .conditional span condition yes no, .conditional span' condition' yes' no', h =>
      .bind (phrase condition condition' h.2.1) fun _ => .bind (phrase yes yes' h.2.2.1) fun _ =>
        .bind (phrase no no' h.2.2.2) fun _ => .add .conditional h.1

theorem phrase? : (p? p?' : Option Phrase) → like.AlikePhrase? p? p?' →
    like.AlikeNumbering (Numbering.phrase? p?) (Numbering.phrase? p?')
  | none, none, _ => .pure none
  | some p, some p', h => .bind (phrase p p' h) fun id => .pure (some id)

theorem phrases : (ps ps' : List Phrase) → like.AlikePhrases ps ps' →
    like.AlikeNumbering (Numbering.phrases ps) (Numbering.phrases ps')
  | [], [], _ => .pure []
  | p :: rest, p' :: rest', h =>
      .bind (phrase p p' h.1) fun id => .bind (phrases rest rest' h.2) fun ids => .pure (id :: ids)

end

end AlikeNumbering

namespace AlikeArena

variable {arena arena' : Arena}

/-- Where there is no node, nowhere stands for nowhere. -/
theorem node (h : like.AlikeArena arena arena') (hstart : like.offset 0 0) (id : NodeId) :
    like.AlikeNode (arena.node id) (arena'.node id) := by
  simp only [Arena.node, ← Array.getElem?_toList]
  have hnodes := h.nodes
  generalize arena.nodes.toList = nodes, arena'.nodes.toList = nodes' at hnodes
  induction hnodes generalizing id with
  | nil => exact ⟨.block, hstart, hstart⟩
  | cons hnode _ ih =>
      obtain ⟨index⟩ := id
      cases index with
      | zero => exact hnode
      | succ index => exact ih ⟨index⟩

theorem list_eq (h : like.AlikeArena arena arena') (range : NodeRange) :
    arena.list range = arena'.list range := by
  simp only [Arena.list, h.lists]

theorem children_eq (h : like.AlikeArena arena arena') (hstart : like.offset 0 0) (id : NodeId) :
    arena.children id = arena'.children id := by
  have hkind := (h.node hstart id).kind
  simp only [Arena.children]
  generalize (arena.node id).kind = kind, (arena'.node id).kind = kind' at hkind
  cases hkind with
  | block | evaluate | structureDef => simp only [h.list_eq]
  | bind | property | memberName | reference | number | text | boolean | binary | unary
  | conditional => rfl

theorem preorder_eq (h : like.AlikeArena arena arena') (hstart : like.offset 0 0) (root : NodeId) :
    arena.preorder root = arena'.preorder root := by
  have hfrom (budget : Nat) (pending : List NodeId) :
      arena.preorderFrom budget pending = arena'.preorderFrom budget pending := by
    induction budget generalizing pending with
    | zero => rfl
    | succ budget ih =>
        cases pending with
        | nil => rfl
        | cons id pending => simp only [Arena.preorderFrom, h.children_eq hstart, ih]
  rw [Arena.preorder, Arena.preorder, h.size_eq, hfrom]

theorem parents_eq (h : like.AlikeArena arena arena') (hstart : like.offset 0 0)
    (nodes : List NodeId) : arena.parents nodes = arena'.parents nodes := by
  simp only [Arena.parents, h.size_eq, h.children_eq hstart]

end AlikeArena

/-- Names that stand for each other read alike, and names are told apart alike. -/
structure Legible (like : Likeness) (interner interner' : Interner) : Prop where
  lookup : ∀ {name name'}, like.name name name' → interner.lookup name = interner'.lookup name'
  eq_iff : ∀ {name name' other other'}, like.name name name' → like.name other other' →
    (name = other ↔ name' = other')

/-- The sources are the same up to what stands for each other. -/
structure AlikeSource (like : Likeness) (source source' : Source) : Prop where
  arena : like.AlikeArena source.arena source'.arena
  root : source.root = source'.root
  nodes : source.nodes = source'.nodes
  parents : source.parents = source'.parents
  legible : like.Legible source.interner source'.interner
  start : like.offset 0 0

theorem AlikePhrase.numbered {p p' : Phrase} (h : like.AlikePhrase p p') :
    p.numbered.1 = p'.numbered.1 ∧ like.AlikeArena p.numbered.2 p'.numbered.2 :=
  AlikeNumbering.phrase p p' h .empty .empty ⟨.nil, rfl⟩

theorem AlikePhrase.source {p p' : Phrase} (h : like.AlikePhrase p p')
    {interner interner' : Interner} (hlegible : like.Legible interner interner')
    (hstart : like.offset 0 0) (name name' text text' : String) :
    like.AlikeSource (.ofPhrase name text p interner) (.ofPhrase name' text' p' interner') := by
  obtain ⟨hroot, harena⟩ := h.numbered
  have hnodes : p.numbered.2.preorder p.numbered.1 = p'.numbered.2.preorder p'.numbered.1 := by
    rw [harena.preorder_eq hstart, hroot]
  have hparents : p.numbered.2.parents (p.numbered.2.preorder p.numbered.1) =
      p'.numbered.2.parents (p'.numbered.2.preorder p'.numbered.1) := by
    rw [harena.parents_eq hstart, hnodes]
  exact ⟨harena, hroot, hnodes, hparents, hlegible, hstart⟩

namespace AlikeSource

variable {source source' : Source}

theorem nodeKind (h : like.AlikeSource source source') (id : NodeId) :
    like.AlikeNodeKind (source.kind id) (source'.kind id) := (h.arena.node h.start id).kind

theorem span (h : like.AlikeSource source source') (id : NodeId) :
    like.AlikeSpan (source.span id) (source'.span id) := (h.arena.node h.start id).span

theorem list_eq (h : like.AlikeSource source source') (range : NodeRange) :
    source.list range = source'.list range := h.arena.list_eq range

theorem parent?_eq (h : like.AlikeSource source source') (id : NodeId) :
    source.parent? id = source'.parent? id := by
  rw [Source.parent?, Source.parent?, h.parents]

theorem ancestors_eq (h : like.AlikeSource source source') (id : NodeId) :
    source.ancestors id = source'.ancestors id := by
  have hupTo (budget : Nat) (id : NodeId) :
      source.ancestorsUpTo budget id = source'.ancestorsUpTo budget id := by
    induction budget generalizing id with
    | zero => rfl
    | succ budget ih => simp only [Source.ancestorsUpTo, h.parent?_eq, ih]
  rw [Source.ancestors, Source.ancestors, h.arena.size_eq, hupTo]

theorem visibility_eq (h : like.AlikeSource source source') (ancestor child : NodeId) :
    source.visibility ancestor child = source'.visibility ancestor child := by
  have hkind := h.nodeKind ancestor
  simp only [Source.visibility]
  generalize source.kind ancestor = kind, source'.kind ancestor = kind' at hkind
  cases hkind with
  | block | structureDef => simp only [h.list_eq]
  | bind | property | memberName | reference | evaluate | number | text | boolean | binary | unary
  | conditional => rfl

theorem definition?_eq (h : like.AlikeSource source source') (id : NodeId) :
    source.definition? id = source'.definition? id := by
  have hkind := h.nodeKind id
  simp only [Source.definition?]
  generalize source.kind id = kind, source'.kind id = kind' at hkind
  cases hkind <;> rfl

/-- The same definitions are visible at every node. -/
theorem levels_eq (h : like.AlikeSource source source') (id : NodeId) :
    source.levels id = source'.levels id := by
  have halong (child : NodeId) (path : List NodeId) :
      source.levelsAlong child path = source'.levelsAlong child path := by
    have hdefinition : source.definition? = source'.definition? := funext h.definition?_eq
    induction path generalizing child with
    | nil => rfl
    | cons ancestor further ih =>
        simp only [Source.levelsAlong, h.visibility_eq, hdefinition, ih]
  rw [Source.levels, Source.levels, h.ancestors_eq, halong]

theorem definedName? (h : like.AlikeSource source source') (id : NodeId) :
    Option.Rel like.name (source.definedName? id) (source'.definedName? id) := by
  have hkind := h.nodeKind id
  simp only [Source.definedName?]
  generalize source.kind id = kind, source'.kind id = kind' at hkind
  cases hkind with
  | bind hname | structureDef hname => exact .some hname
  | block | property | memberName | reference | evaluate | number | text | boolean | binary | unary
  | conditional => exact .none

/-- Names that stand for each other refer to the same definition. -/
theorem definitionOf?_eq (h : like.AlikeSource source source') (id : NodeId) {name name' : Name}
    (hname : like.name name name') :
    source.definitionOf? id name = source'.definitionOf? id name' := by
  have hdefines (node : NodeId) :
      (source.definedName? node == some name) = (source'.definedName? node == some name') := by
    have hdefined := h.definedName? node
    generalize source.definedName? node = found, source'.definedName? node = found' at hdefined
    cases hdefined with
    | none => rfl
    | some hfound =>
        rw [Bool.eq_iff_iff, beq_iff_eq, beq_iff_eq, Option.some_inj, Option.some_inj]
        exact h.legible.eq_iff hfound hname
  simp only [Source.definitionOf?, h.levels_eq, hdefines]

theorem nameText_eq (h : like.AlikeSource source source') {name name' : Name}
    (hname : like.name name name') : source.nameText name = source'.nameText name' :=
  h.legible.lookup hname

end AlikeSource

end Likeness
end Bindery
