import Bindery.Proofs.Eval.Lexical
import Bindery.Proofs.Eval.Termination

/-!
Frames and lexical scope. The frames being run match a list of names where each visible bind is held
by the frames with the value that the list has for it. Whatever is evaluated one after the other, as
statements and inputs are, adds to both in the same way.
-/

namespace Bindery

/-- The context with other frames and another count of instances. -/
def Context.at (base : Context) (frames : List Frame) (built : Nat) : Context :=
  { base with frames, built }

def Context.pushed (base : Context) (frame : CallFrame) : Context :=
  { base with callStack := { base.callStack with frames := frame :: base.callStack.frames } }

theorem Context.enter_at (base : Context) (frame : CallFrame) (frames : List Frame)
    (built : Nat) :
    (base.at frames built).enter frame =
      if base.depth < base.maxDepth then .ok ((base.pushed frame).at ([] :: frames) built)
      else .error { fault := .stackOverflow base.maxDepth } := by
  by_cases hlt : base.depth < base.maxDepth
  · rw [if_pos hlt]
    exact Context.enter_eq_ok.mpr ⟨hlt, rfl⟩
  · rw [if_neg hlt]
    exact Context.enter_eq_error.mpr ⟨hlt, rfl⟩

theorem Context.eq_of_enter {context inner : Context} {frame : CallFrame}
    (h : context.enter frame = .ok inner) :
    inner = (context.pushed frame).at ([] :: context.frames) context.built :=
  (Context.enter_eq_ok.mp h).2

namespace Source
open Lexical

variable {source : Source}

/-- What a lexical evaluation looks at. -/
def program (source : Source) (base : Context) : Program where
  arena := source.arena
  interner := source.interner
  limit := base.maxDepth
  owner := base.owner

/-- What a definition stands for according to the frames being run. -/
def standing? (source : Source) (frames : List Frame) : Definition → Option (Name × Entry)
  | .bind id =>
    match source.definedName? id, frames.findSome? (·.lookup id) with
    | some name, some value => some (name, .value value)
    | _, _ => none
  | .structureDef id => (source.definedName? id).map (·, .structureDef id)

theorem standing?_bind_eq_some {frames : List Frame} {id : NodeId} {entry : Name × Entry} :
    source.standing? frames (.bind id) = some entry ↔
      ∃ name value, source.definedName? id = some name ∧
        frames.findSome? (·.lookup id) = some value ∧ entry = (name, .value value) := by
  simp only [standing?]
  split
  · rename_i name value hname hvalue
    simp only [hname, hvalue, Option.some.injEq, eq_comm (a := entry)]
    exact ⟨fun h => ⟨name, value, rfl, rfl, h⟩, fun ⟨_, _, h, h', heq⟩ => by rw [h, h', heq]⟩
  · rename_i hnone
    exact ⟨nofun, fun ⟨name, value, hname, hvalue, _⟩ => absurd hvalue (hnone name value hname)⟩

/-- The names declared are those of the definitions, and stand for what the frames hold. -/
def Matches (source : Source) (frames : List Frame) (definitions : List Definition)
    (scope : Scope) : Prop :=
  definitions.map (source.standing? frames) = scope.map some

theorem definedName?_of_standing? {frames : List Frame} {definition : Definition} {name : Name}
    {entry : Entry} (h : source.standing? frames definition = some (name, entry)) :
    source.definedName? definition.node = some name := by
  cases definition with
  | bind id =>
      simp only [standing?] at h
      split at h
      · rename_i hname _
        cases h
        exact hname
      · cases h
  | structureDef id =>
      obtain ⟨name', hname, heq⟩ := Option.map_eq_some_iff.mp h
      cases heq
      exact hname

namespace Matches

variable {frames : List Frame} {definitions : List Definition} {scope : Scope}

theorem reverse (h : source.Matches frames definitions scope) :
    source.Matches frames definitions.reverse scope.reverse := by
  rw [Matches, List.map_reverse, List.map_reverse, h]

theorem append {definitions' : List Definition} {scope' : Scope}
    (h : source.Matches frames definitions scope)
    (h' : source.Matches frames definitions' scope') :
    source.Matches frames (definitions ++ definitions') (scope ++ scope') := by
  rw [Matches, List.map_append, List.map_append, h, h']

theorem lookup_eq (h : source.Matches frames definitions scope) (name : Name) :
    scope.lookup name =
      (definitions.find? fun definition =>
        source.definedName? definition.node == some name).bind fun definition =>
          (source.standing? frames definition).map Prod.snd := by
  induction definitions generalizing scope with
  | nil =>
      have hnil : scope = [] := by simpa [Matches] using h.symm
      rw [hnil]
      rfl
  | cons definition rest ih =>
      cases scope with
      | nil => cases h
      | cons first others =>
          obtain ⟨hfirst, hrest⟩ := List.cons.inj h
          have hname := definedName?_of_standing? hfirst
          rw [List.find?_cons, List.lookup_cons, hname]
          by_cases heq : name = first.1
          · subst heq
            simp only [beq_self_eq_true, Option.bind_some, hfirst, Option.map_some]
          · have hne : (some first.1 == some name) = false :=
              beq_eq_false_iff_ne.mpr fun h => heq (Option.some.inj h).symm
            simp only [beq_false_of_ne heq, hne]
            exact ih hrest

theorem of_standing?_eq {frames' : List Frame} (h : source.Matches frames definitions scope)
    (heq : ∀ definition ∈ definitions,
      source.standing? frames' definition = source.standing? frames definition) :
    source.Matches frames' definitions scope := by
  rw [Matches, ← h]
  exact List.map_congr_left heq

/-- A frame in which nothing is bound yet changes nothing. -/
theorem enter (h : source.Matches frames definitions scope) :
    source.Matches ([] :: frames) definitions scope :=
  h.of_standing?_eq fun definition _ => by cases definition <;> rfl

end Matches

/-- What the evaluation of a node binds: the value of a bind. -/
def binding (source : Source) (id : NodeId) (value : Value) : Frame :=
  match source.kind id with
  | .bind _ => [(id, value)]
  | _ => []

/-- The frames after the evaluation of a node. -/
def recorded (source : Source) (id : NodeId) (value : Value) : List Frame → List Frame
  | [] => []
  | top :: outer => (source.binding id value ++ top) :: outer

theorem recorded_eq_self {id : NodeId} (h : ∀ bind, source.kind id ≠ .bind bind) (value : Value)
    (frames : List Frame) : source.recorded id value frames = frames := by
  have hbinding : source.binding id value = [] := by
    simp only [binding]
  cases frames with
  | nil => rfl
  | cons top outer => simp only [recorded, hbinding, List.nil_append]

theorem standing?_binding_append {top : Frame} {outer : List Frame} {definition : Definition}
    {id : NodeId} (hne : definition.node ≠ id) (value : Value) :
    source.standing? ((source.binding id value ++ top) :: outer) definition =
      source.standing? (top :: outer) definition := by
  cases definition with
  | structureDef structureId => rfl
  | bind node =>
      have hlookup : (source.binding id value ++ top).lookup node = top.lookup node := by
        simp only [binding]
        split
        · have hfalse : (node == id) = false := beq_false_of_ne hne
          rw [List.cons_append, List.lookup_cons, hfalse]
          rfl
        · rfl
      simp only [standing?, List.findSome?_cons, hlookup]

/-- What a statement or an input declares once it has a value matches what it binds. -/
theorem matches_definition? {top : Frame} {outer : List Frame} {base : Context} (id : NodeId)
    (value : Value) :
    source.Matches ((source.binding id value ++ top) :: outer) (source.definition? id).toList
      ((source.program base).declared id value) := by
  have hkind : (source.program base).kind id = source.kind id := rfl
  simp only [Matches, binding, definition?, Program.declared, hkind]
  cases h : source.kind id with
  | bind bind =>
      simp [standing?, definedName?, h]
  | structureDef definition =>
      simp [standing?, definedName?, h]
  | block | property | memberName | reference | evaluate | number | text | boolean | binary | unary
  | conditional => rfl

theorem filterMap_cons_append (definitions : List Definition) (id : NodeId) (rest : List NodeId) :
    definitions ++ (id :: rest).filterMap source.definition? =
      definitions ++ (source.definition? id).toList ++ rest.filterMap source.definition? := by
  rw [List.filterMap_cons, List.append_assoc]
  cases source.definition? id <;> rfl

/-- Nodes that stand one after the other, each seeing the given definitions and the nodes before
it. -/
structure Along (source : Source) (place : Place) (definitions : List Definition)
    (ids : List NodeId) : Prop where
  visible_eq : ∀ before id after, ids = before ++ id :: after →
    source.visible id = definitions ++ before.filterMap source.definition?
  admits : ∀ id ∈ ids, place.admits (source.kind id).shape = true

namespace Along

variable {place : Place} {definitions : List Definition} {ids : List NodeId} {id : NodeId}

theorem head (h : source.Along place definitions (id :: ids)) :
    source.visible id = definitions := by
  rw [h.visible_eq [] id ids rfl, List.filterMap_nil, List.append_nil]

theorem tail (h : source.Along place definitions (id :: ids)) :
    source.Along place (definitions ++ (source.definition? id).toList) ids := by
  refine ⟨fun before id' after heq => ?_,
    fun id' hid' => h.admits id' (List.mem_cons_of_mem _ hid')⟩
  rw [h.visible_eq (id :: before) id' after (congrArg (id :: ·) heq), filterMap_cons_append]

theorem left {ids' : List NodeId} (h : source.Along place definitions (ids ++ ids')) :
    source.Along place definitions ids := by
  refine ⟨fun before id after heq => ?_, fun id hid => h.admits id (List.mem_append_left _ hid)⟩
  exact h.visible_eq before id (after ++ ids') (by rw [heq, List.append_assoc]; rfl)

end Along

namespace WellFormed

theorem along_block (h : source.WellFormed) {id : NodeId} {statements : NodeRange}
    (hkind : source.kind id = .block statements) :
    source.Along .statement (source.visible id) (source.list statements) := by
  refine ⟨fun before node after heq => ?_, fun node hnode => ?_⟩
  · have hmem : node ∈ source.children id := by
      rw [children_of_block hkind, heq]
      exact List.mem_append_right _ List.mem_cons_self
    exact h.visible_of_collect hmem (h.visibility_statement hkind heq)
  · refine h.fits id (.statement, node) ?_
    rw [show source.arena.kind id = _ from hkind]
    exact List.mem_map.mpr ⟨node, hnode, rfl⟩

theorem along_inputs (h : source.WellFormed) {id : NodeId} {definition : StructureNode}
    (hkind : source.kind id = .structureDef definition) :
    source.Along .input [] (source.list definition.inputs) := by
  refine ⟨fun before node after heq => ?_, fun node hnode => ?_⟩
  · have hmem : node ∈ source.children id := by
      rw [children_of_structureDef hkind, heq]
      exact List.mem_append_left _ (List.mem_append_right _ List.mem_cons_self)
    exact h.visible_of_stop hmem (h.visibility_input hkind heq)
  · refine h.fits id (.input, node) ?_
    rw [show source.arena.kind id = _ from hkind]
    exact List.mem_append_left _ (List.mem_map.mpr ⟨node, hnode, rfl⟩)

theorem along_body (h : source.WellFormed) {id : NodeId} {definition : StructureNode}
    (hkind : source.kind id = .structureDef definition) :
    source.Along .statement ((source.list definition.inputs).filterMap source.definition?)
      (source.bodyStatements definition) := by
  simp only [bodyStatements]
  split
  · rename_i statements hbody
    obtain ⟨body, hbody, hblock⟩ := Option.map_eq_some_iff.mp hbody
    have hmem : body ∈ source.children id := by
      rw [children_of_structureDef hkind, hbody]
      exact List.mem_append_right _ List.mem_cons_self
    rw [← h.visible_of_stop hmem (visibility_body hkind hbody)]
    exact h.along_block hblock
  · exact ⟨fun before node after heq => by simp at heq, fun node hnode => absurd hnode (by simp)⟩

end WellFormed

/-- A definition among nodes that stand one after the other sees the definitions before it. -/
theorem Along.visible_of_append {place : Place} {definitions before after : List Definition}
    {ids : List NodeId} {definition : Definition} (h : source.Along place definitions ids)
    (heq : ids.filterMap source.definition? = before ++ definition :: after) :
    source.visible definition.node = definitions ++ before := by
  obtain ⟨front, rest, rfl, rfl, hrest⟩ := List.filterMap_eq_append_iff.mp heq
  obtain ⟨others, id, back, rfl, hothers, hid, -⟩ := List.filterMap_eq_cons_iff.mp hrest
  have hnode : definition.node = id := by
    simp only [definition?] at hid
    split at hid <;> cases hid <;> rfl
  have hnone : others.filterMap source.definition? = [] := List.filterMap_eq_nil_iff.mpr hothers
  rw [hnode, h.visible_eq (front ++ others) id back (by rw [List.append_assoc]),
    List.filterMap_append, hnone, List.append_nil]

/-- What is visible at a visible definition are the visible definitions before it. -/
theorem WellFormed.visible_of_visible (h : source.WellFormed) :
    ∀ id before definition after, source.visible id = before ++ definition :: after →
      source.visible definition.node = before := by
  refine h.top_down (fun id hparent before definition after heq => ?_)
    fun parent id hid ih before definition after heq => ?_
  · rw [WellFormed.visible_of_parent?_eq_none hparent] at heq
    simp at heq
  · -- What is visible at a node is what its parent adds, after what is visible at the parent.
    have of_shown {place : Place} {definitions : List Definition} {ids shown : List NodeId}
        (halong : source.Along place definitions ids) (hshown : shown <+: ids)
        (hdefinitions : ∀ before definition after, definitions = before ++ definition :: after →
          source.visible definition.node = before)
        (heq : definitions ++ shown.filterMap source.definition? = before ++ definition :: after) :
        source.visible definition.node = before := by
      obtain ⟨rest, rfl⟩ := hshown
      rcases List.append_eq_append_iff.mp heq with
        ⟨middle, rfl, hmiddle⟩ | ⟨middle, hmiddle, hafter⟩
      · exact halong.left.visible_of_append hmiddle
      · cases middle with
        | nil =>
            rw [List.append_nil] at hmiddle
            have hfirst := halong.left.visible_of_append
              (show shown.filterMap source.definition? = [] ++ definition :: after from hafter.symm)
            rw [hfirst, List.append_nil, hmiddle]
        | cons first middle =>
            cases hafter
            exact hdefinitions before definition middle hmiddle
    cases hvisibility : source.visibility parent id with
    | collect shown =>
        rw [h.visible_of_collect hid hvisibility] at heq
        obtain ⟨statements, hkind, rfl⟩ : ∃ statements, source.kind parent = .block statements ∧
            (source.list statements).takeWhile (· != id) = shown := by
          simp only [visibility] at hvisibility
          split at hvisibility
          · rename_i statements hkind
            exact ⟨statements, hkind, Visibility.collect.inj hvisibility⟩
          · split at hvisibility <;> cases hvisibility
          · split at hvisibility <;> cases hvisibility
          · cases hvisibility
        exact of_shown (h.along_block hkind) (List.takeWhile_prefix _) ih heq
    | stop shown =>
        rw [h.visible_of_stop hid hvisibility] at heq
        obtain ⟨definition', hkind, hshown⟩ : ∃ definition, source.kind parent =
            .structureDef definition ∧ shown <+: source.list definition.inputs := by
          simp only [visibility] at hvisibility
          split at hvisibility
          · cases hvisibility
          · rename_i definition' hkind
            refine ⟨definition', hkind, ?_⟩
            split at hvisibility <;> cases hvisibility
            · exact List.prefix_refl _
            · exact List.takeWhile_prefix _
          · split at hvisibility <;> cases hvisibility
          · cases hvisibility
        exact of_shown (h.along_inputs hkind) hshown (fun _ _ _ heq => by simp at heq) heq
    | proceed =>
        rw [h.visible_of_proceed hid hvisibility] at heq
        exact ih before definition after heq
    | hidden =>
        rw [h.visible_of_hidden hid hvisibility] at heq
        simp at heq

/-- What a node declares and binds is added to the list of names and to the frames at once. -/
theorem Matches.step (hsource : source.WellFormed) {top : Frame} {outer : List Frame}
    {scope : Scope} {id : NodeId} (h : source.Matches (top :: outer) (source.visible id) scope)
    (base : Context) (value : Value) :
    source.Matches ((source.binding id value ++ top) :: outer)
      (source.visible id ++ (source.definition? id).toList)
      (scope ++ (source.program base).declared id value) := by
  -- A visible definition comes before the node, so the new value hides none of theirs.
  refine (h.of_standing?_eq fun definition hvisible => ?_).append (matches_definition? id value)
  refine standing?_binding_append (fun heq => ?_) value
  have hlt := hsource.index_lt_of_visible hvisible
  rw [heq] at hlt
  exact Nat.lt_irrefl _ hlt

/-- The frames and the list of names after nodes have been evaluated one after the other: the
innermost frame holds new values of just the binds among these nodes, and the names declared are
those of all definitions so far. -/
def Advanced (source : Source) (definitions : List Definition) (ids : List NodeId) (top : Frame)
    (outer frames : List Frame) (scope : Scope) : Prop :=
  ∃ new : Frame, frames = (new ++ top) :: outer ∧ (∀ entry ∈ new, entry.1 ∈ ids) ∧
    (∀ id ∈ ids, source.definition? id = some (.bind id) → (new.lookup id).isSome = true) ∧
    source.Matches frames (definitions ++ ids.filterMap source.definition?) scope

namespace Advanced

variable {definitions : List Definition} {ids : List NodeId} {top : Frame}
  {outer frames : List Frame} {scope : Scope}

theorem nil (h : source.Matches (top :: outer) definitions scope) :
    source.Advanced definitions [] top outer (top :: outer) scope := by
  refine ⟨[], rfl, fun entry hentry => absurd hentry List.not_mem_nil,
    fun id hid => absurd hid List.not_mem_nil, ?_⟩
  rw [List.filterMap_nil, List.append_nil]
  exact h

theorem cons {id : NodeId} {value : Value}
    (h : source.Advanced (definitions ++ (source.definition? id).toList) ids
      (source.binding id value ++ top) outer frames scope) :
    source.Advanced definitions (id :: ids) top outer frames scope := by
  obtain ⟨new, hframes, hnew, hheld, hmatches⟩ := h
  refine ⟨new ++ source.binding id value, ?_, fun entry hentry => ?_,
    fun node hnode hbind => ?_, ?_⟩
  · rw [hframes, List.append_assoc]
  · rcases List.mem_append.mp hentry with hentry | hentry
    · exact List.mem_cons_of_mem _ (hnew entry hentry)
    · simp only [binding] at hentry
      split at hentry
      · rw [List.mem_singleton.mp hentry]
        exact List.mem_cons_self
      · cases hentry
  · rw [List.lookup_append, Option.isSome_or, Bool.or_eq_true]
    rcases List.mem_cons.mp hnode with rfl | hnode
    · refine .inr ?_
      simp only [definition?] at hbind
      split at hbind
      · rename_i bind hkind
        simp only [binding, hkind, List.lookup_cons, beq_self_eq_true, Option.isSome_some]
      · cases hbind
      · cases hbind
    · exact .inl (hheld node hnode hbind)
  · rw [filterMap_cons_append]
    exact hmatches

end Advanced

end Source
end Bindery
