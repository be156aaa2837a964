import Bindery.Proofs.Eval.Simulation

/-!
Which frame a name is read from. Around the frame of the block or the construction that is being run
lie those of others, older ones of the same block or structure among them. When the root is
evaluated, a bind is read from the frame of the latest activation that declares it. So nothing is
ever evaluated on demand, and what earlier evaluations have kept does not matter.
-/

namespace Bindery.Source
open Lexical

variable {source : Source}

/-- What is run with the statements of a block: the structure of which it is the body, or else the
block itself. -/
def activated (source : Source) (id : NodeId) : NodeId :=
  match source.parent? id with
  | some parent => if (source.structure? parent).bind (·.body) = some id then parent else id
  | none => id

/-- The block or the structure that declares a statement or an input. -/
def declaring? (source : Source) (id : NodeId) : Option NodeId :=
  (source.parent? id).map source.activated

/-- What the call stack says of the activation of a block or a structure. -/
def Activates (source : Source) (id : NodeId) (frame : CallFrame) : Prop :=
  match frame.kind with
  | .block => (∃ statements, source.kind id = .block statements) ∧ frame.callSpan = source.span id
  | .construct definition _ => definition = id

/-- The activations that are live, the latest first, with their frames. Each frame holds nothing but
what its block or structure declares. -/
inductive Running (source : Source) : List NodeId → List CallFrame → List Frame → Prop
  | nil : Running source [] [] []
  | cons {id call frame live calls frames} :
      source.Activates id call → (∀ entry ∈ frame, source.declaring? entry.1 = some id) →
      Running source live calls frames →
      Running source (id :: live) (call :: calls) (frame :: frames)

/-- The frame of the latest activation of `home` holds `value` for `bind`, and no frame further in
holds the bind. -/
inductive LatestHolds (home bind : NodeId) (value : Value) : List NodeId → List Frame → Prop
  | here {frame live frames} : frame.lookup bind = some value →
      LatestHolds home bind value (home :: live) (frame :: frames)
  | further {id frame live frames} : id ≠ home → frame.lookup bind = none →
      LatestHolds home bind value live frames →
      LatestHolds home bind value (id :: live) (frame :: frames)

theorem LatestHolds.findSome?_eq {home bind : NodeId} {value : Value} {live : List NodeId}
    {frames : List Frame} (h : LatestHolds home bind value live frames) :
    frames.findSome? (·.lookup bind) = some value := by
  induction h with
  | here hlookup => rw [List.findSome?_cons, hlookup]
  | further _ hlookup _ ih =>
      rw [List.findSome?_cons, hlookup]
      exact ih

/-- Evaluating the root from `start`, the node `id` is evaluated in `context` while the activations
of `live` are live. From there evaluations may be nested at most `steps` deep. -/
inductive Reached (source : Source) (start : Context) :
    (steps : Nat) → (live : List NodeId) → NodeId → Context → Prop
  | root : Reached source start (source.stepBound start) [] source.root start
  | call {steps live id context entered node later} :
      Reached source start (steps + 1) live id context →
      source.Calls (source.eval steps) id context entered node later →
      Reached source start steps (entered.toList ++ live) node later

section Activated

variable {parent id : NodeId}

theorem structure?_eq_some {definition : StructureNode} :
    source.structure? id = some definition ↔ source.kind id = .structureDef definition := by
  simp only [structure?]
  cases source.kind id <;> simp

theorem bind?_eq_some {bind : BindNode} :
    source.bind? id = some bind ↔ source.kind id = .bind bind := by
  simp only [bind?]
  cases source.kind id <;> simp

theorem placed_value {node : NodeId} {bind : BindNode} (hbind : source.bind? id = some bind)
    (hvalue : bind.value = some node) :
    (Place.expression, node) ∈ source.arena.placements (source.kind id) := by
  simp [bind?_eq_some.mp hbind, Arena.placements, hvalue]

theorem body_eq_some {body : NodeId} (h : (source.structure? id).bind (·.body) = some body) :
    ∃ definition, source.kind id = .structureDef definition ∧ definition.body = some body := by
  obtain ⟨definition, hdefinition, hbody⟩ := Option.bind_eq_some_iff.mp h
  exact ⟨definition, structure?_eq_some.mp hdefinition, hbody⟩

theorem placed_body {body : NodeId} {definition : StructureNode}
    (hkind : source.kind id = .structureDef definition) (hbody : definition.body = some body) :
    (Place.body, body) ∈ source.arena.placements (source.kind id) := by
  simp [hkind, Arena.placements, hbody]

theorem exists_body {definition : StructureNode} (h : id ∈ source.bodyStatements definition) :
    ∃ body statements, definition.body = some body ∧ source.kind body = .block statements ∧
      source.bodyStatements definition = source.list statements := by
  cases hbody : definition.body with
  | none => simp [bodyStatements, hbody] at h
  | some body =>
      cases hkind : source.kind body with
      | block statements =>
          exact ⟨body, statements, rfl, hkind, by simp [bodyStatements, hbody, hkind]⟩
      | bind | structureDef | property | memberName | reference | evaluate | number | text
      | boolean | binary | unary | conditional => simp [bodyStatements, hbody, hkind] at h

namespace WellFormed

theorem activated_of_ne_body (h : source.WellFormed) (hid : id ∈ source.children parent)
    (hbody : (source.structure? parent).bind (·.body) ≠ some id) : source.activated id = id := by
  simp only [activated, h.parent?_eq_some.mpr hid, if_neg hbody]

theorem activated_body (h : source.WellFormed) {definition : StructureNode}
    (hkind : source.kind parent = .structureDef definition) (hbody : definition.body = some id) :
    source.activated id = parent := by
  have hid := mem_children_of_placed (placed_body hkind hbody)
  have hstructure := structure?_eq_some.mpr hkind
  simp only [activated, h.parent?_eq_some.mpr hid, hstructure, Option.bind_some, hbody, if_true]

theorem activated_structureDef (h : source.WellFormed) {definition : StructureNode}
    (hkind : source.kind id = .structureDef definition) : source.activated id = id := by
  cases hparent : source.parent? id with
  | none => simp only [activated, hparent]
  | some parent =>
      refine h.activated_of_ne_body (h.parent?_eq_some.mp hparent) fun hbody => ?_
      obtain ⟨outer, houter, hbody⟩ := body_eq_some hbody
      have hadmits := h.admits_of_placed (placed_body houter hbody)
      rw [hkind] at hadmits
      cases hadmits

theorem activated_of_placed (h : source.WellFormed)
    (hid : (Place.expression, id) ∈ source.arena.placements (source.kind parent)) :
    source.activated id = id := by
  refine h.activated_of_ne_body (mem_children_of_placed hid) fun hbody => ?_
  obtain ⟨definition, hkind, -⟩ := body_eq_some hbody
  simp [hkind, Arena.placements] at hid

theorem index_le_activated (h : source.WellFormed) (id : NodeId) :
    id.index ≤ (source.activated id).index := by
  simp only [activated]
  split
  · split
    · rename_i parent hparent _
      exact Nat.le_of_lt (h.index_lt_of_mem_children (h.parent?_eq_some.mp hparent))
    · exact Nat.le_refl _
  · exact Nat.le_refl _

theorem declaring?_of_mem_children (h : source.WellFormed) (hid : id ∈ source.children parent) :
    source.declaring? id = some (source.activated parent) := by
  simp only [declaring?, h.parent?_eq_some.mpr hid, Option.map_some]

/-- What is visible at a node is declared further out. -/
theorem declaring?_of_visible (h : source.WellFormed) {definition : Definition}
    (hvisible : definition ∈ source.visible id) :
    ∃ home, source.declaring? definition.node = some home ∧ id.index < home.index ∧
      definition.node ∉ source.children id := by
  obtain ⟨-, outer, houter, hlt⟩ := h.visible_before id definition hvisible
  have hle := h.index_le_activated outer
  refine ⟨source.activated outer, h.declaring?_of_mem_children houter, by omega, fun hmem => ?_⟩
  have hparent := h.parent?_eq_some.mpr houter
  rw [h.parent?_eq_some.mpr hmem] at hparent
  cases hparent
  exact Nat.lt_irrefl _ hlt

end WellFormed
end Activated

/-- Where an evaluation of a node may stand: the visible binds are held by the frames of the latest
activations that declare them. -/
structure Situated (source : Source) (live : List NodeId) (id : NodeId) (context : Context) :
    Prop where
  running : source.Running live context.callStack.frames context.frames
  admits : Place.statement.admits (source.kind id).shape = true
  frames_ne_nil : ∀ bind, source.kind id = .bind bind → context.frames ≠ []
  activated_eq : source.activated id = id
  scope : ∃ scope, source.Matches context.frames (source.visible id) scope
  latest : ∀ bind, .bind bind ∈ source.visible id → ∃ home value,
    source.declaring? bind = some home ∧ LatestHolds home bind value live context.frames

/-- What a step that comes to a value leaves behind, told by the run that it simulates. -/
theorem exists_at_of_simulates {α β : Type} {base later : Context}
    {ok : α → β → List Frame → Prop} {outcome : Outcome α} {value : α}
    {run : Option (Except PlacedFault β × Nat)} (h : Simulates base ok outcome run)
    (hvalue : outcome = .value value later) :
    ∃ result frames built, later = base.at frames built ∧ ok value result frames := by
  subst hvalue
  match run, h with
  | some (.ok result, built), ⟨value', frames, heq, hok⟩ =>
      cases heq
      exact ⟨result, frames, built, rfl, hok⟩
  | some (.error _, _), ⟨_, _, heq, _⟩ => cases heq

namespace Situated

variable {live : List NodeId} {id node : NodeId} {context later : Context} {steps : Nat}

theorem of_built (h : source.Situated live id context) {built : Nat} :
    source.Situated live id (context.at context.frames built) :=
  ⟨h.running, h.admits, h.frames_ne_nil, h.activated_eq, h.scope, h.latest⟩

theorem child (h : source.Situated live id context) (hsource : source.WellFormed)
    (hplaced : (Place.expression, node) ∈ source.arena.placements (source.kind id)) :
    source.Situated live node context := by
  have hvisible := hsource.visible_of_placed hplaced
  have hadmits := hsource.admits_of_placed hplaced
  refine ⟨h.running, Place.statement_of_expression hadmits,
    fun bind hkind => absurd hkind (NodeKind.ne_bind_of_expression hadmits bind),
    hsource.activated_of_placed hplaced, ?_, ?_⟩
  · rw [hvisible]
    exact h.scope
  · rw [hvisible]
    exact h.latest

theorem of_expression (h : source.Situated live id context) (hsource : source.WellFormed)
    (hplaced : (Place.expression, node) ∈ source.arena.placements (source.kind id))
    {value : Value} (hvalue : source.eval steps node context = .value value later) :
    ∃ built, later = context.at context.frames built := by
  obtain ⟨scope, hmatches⟩ := h.scope
  have hagrees := source.agrees_eval hsource (source.program context) steps
  have hvalue' : source.eval steps node (context.at context.frames context.built) =
      .value value later := hvalue
  obtain ⟨_, _, built, hlater, -, rfl⟩ :=
    exists_at_of_simulates (hagrees.child rfl hsource hplaced hmatches) hvalue'
  exact ⟨built, hlater⟩

theorem of_arguments (h : source.Situated live id context) (hsource : source.WellFormed)
    {ids : List NodeId} {values : List Value}
    (hplaced : ∀ node ∈ ids, (Place.expression, node) ∈ source.arena.placements (source.kind id))
    {built : Nat}
    (hvalues : evalEach (source.eval steps) ids (context.at context.frames built) =
      .value values later) :
    ∃ built, later = context.at context.frames built := by
  obtain ⟨scope, hmatches⟩ := h.scope
  have hagrees := source.agrees_eval hsource (source.program context) steps
  have hvisible (node : NodeId) (hnode : node ∈ ids) :=
    hsource.visible_of_placed (hplaced node hnode)
  have hadmits (node : NodeId) (hnode : node ∈ ids) := hsource.admits_of_placed (hplaced node hnode)
  obtain ⟨_, _, built', hlater, -, rfl⟩ :=
    exists_at_of_simulates (hagrees.evalEach rfl hvisible hadmits hmatches) hvalues
  exact ⟨built', hlater⟩

/-- In a new frame that holds the nodes before it, a node sees these besides what it sees of older
frames. -/
theorem entered (h : source.Situated live id context) {home : NodeId} {call : CallFrame}
    {frame : Frame} {ids : List NodeId} {definitions : List Definition} {scope : Scope}
    {built : Nat} (hactivates : source.Activates home call)
    (hdeclaring : ∀ id ∈ ids, source.declaring? id = some home)
    (hkeys : ∀ entry ∈ frame, entry.1 ∈ ids)
    (hheld : ∀ id ∈ ids, source.definition? id = some (.bind id) →
      (frame.lookup id).isSome = true)
    (hvisible : source.visible node = definitions ++ ids.filterMap source.definition?)
    (hmatches : source.Matches (frame :: context.frames)
      (definitions ++ ids.filterMap source.definition?) scope)
    (houter : ∀ bind, .bind bind ∈ definitions → bind ∉ ids ∧ ∃ home' value,
      source.declaring? bind = some home' ∧ home ≠ home' ∧
      LatestHolds home' bind value live context.frames)
    (hadmits : Place.statement.admits (source.kind node).shape = true)
    (hactivated : source.activated node = node) :
    source.Situated (home :: live) node
      ((context.pushed call).at (frame :: context.frames) built) := by
  refine ⟨.cons hactivates (fun entry hentry => hdeclaring _ (hkeys entry hentry)) h.running,
    hadmits, fun _ _ => List.cons_ne_nil _ _, hactivated, ⟨scope, hvisible ▸ hmatches⟩,
    fun bind hbind => ?_⟩
  rw [hvisible] at hbind
  rcases List.mem_append.mp hbind with hbind | hbind
  · obtain ⟨hnot, home', value, hhome, hne, hlatest⟩ := houter bind hbind
    refine ⟨home', value, hhome, .further hne ?_ hlatest⟩
    refine List.lookup_eq_none_iff.mpr fun entry hentry => ?_
    exact bne_iff_ne.mpr fun heq => hnot (heq ▸ hkeys entry hentry)
  · obtain ⟨id, hid, hdefinition⟩ := List.mem_filterMap.mp hbind
    have heq : id = bind := by
      simp only [definition?] at hdefinition
      split at hdefinition <;> cases hdefinition
      rfl
    subst heq
    obtain ⟨value, hvalue⟩ := Option.isSome_iff_exists.mp (hheld id hid hdefinition)
    exact ⟨home, value, hdeclaring id hid, .here hvalue⟩

theorem statement (h : source.Situated live id context) (hsource : source.WellFormed)
    {statements : NodeRange} {before after : List NodeId} {inner : Context} {last : Value}
    (hkind : source.kind id = .block statements)
    (hlist : source.list statements = before ++ node :: after)
    (henter : context.enter ⟨.block, source.span id⟩ = .ok inner)
    (hbefore : evalSequence (source.eval steps) .none before inner = .value last later) :
    source.Situated (id :: live) node later := by
  obtain ⟨scope, hmatches⟩ := h.scope
  obtain rfl := Context.eq_of_enter henter
  have halong := hsource.along_block hkind
  rw [hlist] at halong
  have hagrees := source.agrees_eval hsource (source.program context) steps
  have hpushed : source.program (context.pushed ⟨.block, source.span id⟩) =
    source.program context := rfl
  obtain ⟨_, _, built, rfl, -, scope', new, rfl, hkeys, hheld, hmatches'⟩ :=
    exists_at_of_simulates (hagrees.evalStatements hpushed hsource halong.left hmatches.enter)
      hbefore
  have hmem (id' : NodeId) (hid' : id' ∈ before ++ node :: after) : id' ∈ source.children id := by
    rw [WellFormed.children_of_block hkind, hlist]
    exact hid'
  have hnode : node ∈ before ++ node :: after := List.mem_append_right _ List.mem_cons_self
  have hdeclaring (id' : NodeId) (hid' : id' ∈ before) : source.declaring? id' = some id := by
    rw [hsource.declaring?_of_mem_children (hmem id' (List.mem_append_left _ hid')), h.activated_eq]
  rw [List.append_nil] at hmatches' ⊢
  refine h.entered ⟨⟨statements, hkind⟩, rfl⟩ hdeclaring hkeys hheld
    (halong.visible_eq before node after rfl) hmatches' (fun bind hbind => ?_)
    (halong.admits node hnode) ?_
  · obtain ⟨home, hhome, hlt, hnot⟩ := hsource.declaring?_of_visible hbind
    obtain ⟨home', value, hhome', hlatest⟩ := h.latest bind hbind
    refine ⟨fun hbind => hnot (hmem bind (List.mem_append_left _ hbind)), home', value, hhome', ?_,
      hlatest⟩
    -- A block is inside whatever declares the names that are visible at it.
    rintro rfl
    cases hhome.symm.trans hhome'
    exact Nat.lt_irrefl _ hlt
  · refine hsource.activated_of_ne_body (hmem node hnode) fun hbody => ?_
    obtain ⟨definition, hdefinition, -⟩ := body_eq_some hbody
    cases hkind.symm.trans hdefinition

theorem of_constructs (h : source.Situated live id context) (hsource : source.WellFormed)
    {structureId : NodeId} {definition : StructureNode} {values : List Value} {inner : Context}
    (hconstructs : source.Constructs (source.eval steps) id context structureId definition values
      inner) :
    ∃ call built, source.Activates structureId call ∧
      inner = (context.pushed call).at ([] :: context.frames) built := by
  obtain ⟨callee, arguments, name, between, outer, hkind, hcallee, harguments, henter⟩ :=
    hconstructs.called
  have hcallee' : (Place.expression, callee) ∈ source.arena.placements (source.kind id) := by
    simp [hkind, Arena.placements]
  obtain ⟨built, rfl⟩ := h.of_expression hsource hcallee' hcallee
  obtain ⟨built', rfl⟩ :=
    h.of_arguments hsource (fun _ => WellFormed.placed_argument hkind) harguments
  obtain rfl := Context.eq_of_enter henter
  exact ⟨⟨.construct structureId definition.name, source.span id⟩, built', rfl, rfl⟩

theorem input (h : source.Situated live id context) (hsource : source.WellFormed)
    {structureId : NodeId} {definition : StructureNode} {values : List Value} {inner : Context}
    (hconstructs : source.Constructs (source.eval steps) id context structureId definition values
      inner)
    {before : List NodeId} {input : NodeId} {after : List NodeId} {properties : Properties}
    {bind : BindNode} (hlist : source.list definition.inputs = before ++ input :: after)
    (hbefore : source.supplyInputs (source.eval steps) definition.name before values [] inner =
      .value properties later)
    (hbind : source.bind? input = some bind) (hvalue : bind.value = some node) :
    source.Situated (structureId :: live) node later := by
  have hkind := structure?_eq_some.mp hconstructs.defined
  obtain ⟨call, built, hactivates, rfl⟩ := h.of_constructs hsource hconstructs
  have halong := hsource.along_inputs hkind
  rw [hlist] at halong
  have hagrees := source.agrees_eval hsource (source.program context) steps
  have hpushed : source.program (context.pushed call) = source.program context := rfl
  have hempty : source.Matches ([] :: context.frames) [] [] := rfl
  obtain ⟨_, _, built', rfl, -, new, rfl, hkeys, hheld, hmatches⟩ :=
    exists_at_of_simulates (hagrees.evalInputs hpushed hsource halong.left hempty) hbefore
  have hplaced := placed_value hbind hvalue
  have hdeclaring (id' : NodeId) (hid' : id' ∈ before) :
      source.declaring? id' = some structureId := by
    have hmem : id' ∈ source.children structureId := by
      rw [WellFormed.children_of_structureDef hkind, hlist]
      exact List.mem_append_left _ (List.mem_append_left _ hid')
    rw [hsource.declaring?_of_mem_children hmem, hsource.activated_structureDef hkind]
  rw [List.append_nil] at hmatches ⊢
  refine h.entered hactivates hdeclaring hkeys hheld ?_ hmatches
    (fun bind hbind => absurd hbind List.not_mem_nil)
    (Place.statement_of_expression (hsource.admits_of_placed hplaced))
    (hsource.activated_of_placed hplaced)
  rw [hsource.visible_of_placed hplaced]
  exact halong.visible_eq before input after rfl

theorem bodyStatement (h : source.Situated live id context) (hsource : source.WellFormed)
    {structureId : NodeId} {definition : StructureNode} {values : List Value}
    {inner between : Context}
    (hconstructs : source.Constructs (source.eval steps) id context structureId definition values
      inner)
    {before after : List NodeId} {properties properties' : Properties}
    (hinputs : source.supplyInputs (source.eval steps) definition.name
      (source.list definition.inputs) values [] inner = .value properties between)
    (hlist : source.bodyStatements definition = before ++ node :: after)
    (hbefore : source.runBody (source.eval steps) before properties between =
      .value properties' later) :
    source.Situated (structureId :: live) node later := by
  have hkind := structure?_eq_some.mp hconstructs.defined
  obtain ⟨call, built, hactivates, rfl⟩ := h.of_constructs hsource hconstructs
  have halong := hsource.along_body hkind
  rw [hlist] at halong
  have hagrees := source.agrees_eval hsource (source.program context) steps
  have hpushed : source.program (context.pushed call) = source.program context := rfl
  have hempty : source.Matches ([] :: context.frames) [] [] := rfl
  obtain ⟨_, _, _, rfl, -, new, rfl, hkeys, hheld, hmatches⟩ :=
    exists_at_of_simulates
      (hagrees.evalInputs hpushed hsource (hsource.along_inputs hkind) hempty) hinputs
  obtain ⟨_, _, built', rfl, -, scope', new', rfl, hkeys', hheld', hmatches'⟩ :=
    exists_at_of_simulates (hagrees.evalBody hpushed hsource halong.left hmatches) hbefore
  have hnode : node ∈ before ++ node :: after := List.mem_append_right _ List.mem_cons_self
  obtain ⟨body, statements, hbody, hblock, hstatements⟩ := exists_body (hlist ▸ hnode)
  have hmem (id' : NodeId) (hid' : id' ∈ before ++ node :: after) :
      id' ∈ source.children body := by
    rw [WellFormed.children_of_block hblock, ← hstatements, hlist]
    exact hid'
  have hdeclaring (id' : NodeId) (hid' : id' ∈ source.list definition.inputs ++ before) :
      source.declaring? id' = some structureId := by
    rcases List.mem_append.mp hid' with hid' | hid'
    · have hmem' : id' ∈ source.children structureId := by
        rw [WellFormed.children_of_structureDef hkind]
        exact List.mem_append_left _ hid'
      rw [hsource.declaring?_of_mem_children hmem', hsource.activated_structureDef hkind]
    · rw [hsource.declaring?_of_mem_children (hmem id' (List.mem_append_left _ hid')),
        hsource.activated_body hkind hbody]
  rw [List.append_nil] at hmatches' ⊢
  rw [← List.filterMap_append, ← List.nil_append (List.filterMap _ _)] at hmatches'
  refine h.entered hactivates hdeclaring (fun entry hentry => ?_) (fun id' hid' hbind => ?_) ?_
    hmatches' (fun bind hbind => absurd hbind List.not_mem_nil) (halong.admits node hnode) ?_
  · rcases List.mem_append.mp hentry with hentry | hentry
    · exact List.mem_append_right _ (hkeys' entry hentry)
    · exact List.mem_append_left _ (hkeys entry hentry)
  · rw [List.lookup_append, Option.isSome_or, Bool.or_eq_true]
    rcases List.mem_append.mp hid' with hid' | hid'
    · exact .inr (hheld id' hid' hbind)
    · exact .inl (hheld' id' hid' hbind)
  · rw [List.filterMap_append]
    exact halong.visible_eq before node after rfl
  · refine hsource.activated_of_ne_body (hmem node hnode) fun hbody => ?_
    obtain ⟨definition, hdefinition, -⟩ := body_eq_some hbody
    cases hblock.symm.trans hdefinition

/-- The frames alone have a value for every visible bind. -/
theorem lookup?_eq (h : source.Situated live id context) {name : Name} {bind : NodeId}
    (hdefinition : source.definitionOf? id name = some (.bind bind)) :
    ∃ home value, source.declaring? bind = some home ∧
      LatestHolds home bind value live context.frames ∧
      ∀ demanded, { context with demanded }.lookup? bind = some value := by
  obtain ⟨home, value, hhome, hlatest⟩ := h.latest bind (mem_visible_of_definitionOf? hdefinition).1
  refine ⟨home, value, hhome, hlatest, fun demanded => ?_⟩
  simp only [Context.lookup?, hlatest.findSome?_eq, Option.some_or]

/-- A name is read from the frame of the latest activation that declares it, without any further
evaluation. -/
theorem evalReference_eq (h : source.Situated live id context) {name : Name} {bind : NodeId}
    (hdefinition : source.definitionOf? id name = some (.bind bind)) :
    ∃ home value, source.declaring? bind = some home ∧
      LatestHolds home bind value live context.frames ∧
      ∀ recur demanded, source.evalReference recur id name { context with demanded } =
        .value value { context with demanded } := by
  obtain ⟨home, value, hhome, hlatest, hvalue⟩ := h.lookup?_eq hdefinition
  refine ⟨home, value, hhome, hlatest, fun recur demanded => ?_⟩
  simp only [evalReference, hdefinition, Step.bind_apply, Step.lookup?, hvalue demanded]
  rfl

/-- Whatever is evaluated on the way stands as the node itself does. -/
theorem of_calls (h : source.Situated live id context) (hsource : source.WellFormed)
    {entered : Option NodeId}
    (hcalls : source.Calls (source.eval steps) id context entered node later) :
    source.Situated (entered.toList ++ live) node later := by
  cases hcalls with
  | statement hkind hlist henter hbefore => exact h.statement hsource hkind hlist henter hbefore
  | demanded hkind hdefinition hlookup =>
      obtain ⟨_, _, -, -, hvalue⟩ := h.lookup?_eq hdefinition
      cases hlookup.symm.trans (hvalue context.demanded)
  | default hconstructs hlist hbefore _ hbind hvalue =>
      exact h.input hsource hconstructs hlist hbefore hbind hvalue
  | bodyStatement hconstructs hinputs hlist hbefore =>
      exact h.bodyStatement hsource hconstructs hinputs hlist hbefore
  | value hkind hvalue =>
      exact h.child hsource (by simp [hkind, Arena.placements, hvalue])
  | subject hkind | callee hkind | left hkind | operand hkind | condition hkind =>
      exact h.child hsource (by simp [hkind, Arena.placements])
  | @argument callee arguments _ _ _ _ _ _ _ hkind hlist hcallee hbefore =>
      have hplaced (node : NodeId) (hnode : node ∈ source.list arguments) :
          (Place.expression, node) ∈ source.arena.placements (source.kind id) :=
        WellFormed.placed_argument hkind hnode
      rw [hlist] at hplaced
      have hplaced' : (Place.expression, callee) ∈ source.arena.placements (source.kind id) := by
        simp [hkind, Arena.placements]
      obtain ⟨built, rfl⟩ := h.of_expression hsource hplaced' hcallee
      obtain ⟨built', rfl⟩ := h.of_arguments hsource
        (fun node hnode => hplaced node (List.mem_append_left _ hnode)) hbefore
      exact h.of_built.child hsource (hplaced node (List.mem_append_right _ List.mem_cons_self))
  | @right _ left _ _ _ hkind hleft =>
      have hplaced : (Place.expression, left) ∈ source.arena.placements (source.kind id) := by
        simp [hkind, Arena.placements]
      obtain ⟨built, rfl⟩ := h.of_expression hsource hplaced hleft
      exact h.of_built.child hsource (by simp [hkind, Arena.placements])
  | @branch condition _ _ choice _ hkind hcondition =>
      have hplaced : (Place.expression, condition) ∈ source.arena.placements (source.kind id) := by
        simp [hkind, Arena.placements]
      obtain ⟨built, rfl⟩ := h.of_expression hsource hplaced hcondition
      exact h.of_built.child hsource (by cases choice <;> simp [hkind, Arena.placements])

theorem root (hsource : source.WellFormed) {start : Context} (hcalls : start.callStack.frames = [])
    (hframes : start.frames = []) : source.Situated [] source.root start := by
  obtain ⟨statements, hkind⟩ := hsource.root_kind
  have hvisible := WellFormed.visible_of_parent?_eq_none hsource.parent?_root
  refine ⟨?_, ?_, fun bind hbind => ?_, ?_, ⟨[], ?_⟩, fun bind hbind => ?_⟩
  · rw [hcalls, hframes]
    exact .nil
  · rw [hkind]
    rfl
  · cases hkind.symm.trans hbind
  · simp only [activated, hsource.parent?_root]
  · rw [hvisible]
    rfl
  · rw [hvisible] at hbind
    cases hbind

end Situated

theorem situated_of_reached (hsource : source.WellFormed) {start context : Context}
    (hcalls : start.callStack.frames = []) (hframes : start.frames = []) {steps : Nat}
    {live : List NodeId} {id : NodeId} (h : source.Reached start steps live id context) :
    source.Situated live id context := by
  -- Along the calls that lead to the node: each of them keeps the invariant.
  induction h with
  | root => exact .root hsource hcalls hframes
  | call _ hcalls ih => exact ih.of_calls hsource hcalls

end Bindery.Source

namespace Bindery

/-- The same outcome with other values kept on demand. -/
def Outcome.keeping {α : Type} (demanded : Frame) : Outcome α → Outcome α
  | .value result context => .value result { context with demanded }
  | .error failure context => .error failure { context with demanded }
  | .unfinished => .unfinished

theorem Context.enter_keeping (context : Context) (frame : CallFrame) (demanded : Frame) :
    { context with demanded }.enter frame =
      (context.enter frame).map fun inner => { inner with demanded } := by
  simp only [enter]
  cases context.callStack.push frame <;> rfl

namespace Step

/-- A step leaves as many frames as there were, and the second step comes to the same whatever has
been kept on demand, which neither changes. -/
def IgnoresKept {α : Type} (context : Context) (step step' : Step α) : Prop :=
  (∀ later, (step context).context? = some later →
    later.frames.length = context.frames.length) ∧
  ∀ demanded, step' { context with demanded } = (step context).keeping demanded

theorem IgnoresKept.inFrame {α : Type} {context : Context} {frame : CallFrame}
    {step step' : Step α} (interner : Interner)
    (h : ∀ inner, context.enter frame = .ok inner → inner.frames ≠ [] →
      IgnoresKept inner step step') :
    IgnoresKept context (Step.inFrame interner frame step) (Step.inFrame interner frame step') := by
  simp only [IgnoresKept, Step.inFrame, Context.enter_keeping]
  cases henter : context.enter frame with
  | error failure =>
      refine ⟨fun later hlater => ?_, fun demanded => rfl⟩
      cases hlater
      rfl
  | ok inner =>
      have hframes : inner.frames = [] :: context.frames := by
        rw [Context.eq_of_enter henter]
        rfl
      obtain ⟨hlength, hkeeping⟩ := h inner henter (by rw [hframes]; exact List.cons_ne_nil _ _)
      have hleave (between : Context) (hbetween : between.frames.length = inner.frames.length) :
          between.leave.frames.length = context.frames.length := by
        simp only [Context.leave, List.length_tail, hbetween, hframes, List.length_cons,
          Nat.add_sub_cancel]
      refine ⟨fun later hlater => ?_, fun demanded => ?_⟩
      · cases hstep : step inner with
        | value result between | error failure between =>
            simp only [hstep] at hlater
            cases hlater
            exact hleave between (hlength between (by rw [hstep]; rfl))
        | unfinished =>
            simp only [hstep] at hlater
            cases hlater
      · simp only [Except.map]
        rw [hkeeping demanded]
        cases step inner <;> rfl

/-- What is bound in a frame is not kept. -/
theorem congruence_ignoresKept :
    Congruence fun _ context step step' =>
      context.frames ≠ [] → IgnoresKept context step step' where
  pure _ _ _ := ⟨fun later hlater => by cases hlater; rfl, fun _ => rfl⟩
  fail _ _ _ := ⟨fun later hlater => by cases hlater; rfl, fun _ => rfl⟩
  build _ _ _ _ _ := ⟨fun later hlater => by cases hlater; rfl, fun _ => rfl⟩
  record context bind value hframes := by
    cases hcontext : context.frames with
    | nil => exact absurd hcontext hframes
    | cons top outer =>
        simp only [IgnoresKept, Step.record, Context.record, hcontext]
        refine ⟨fun later hlater => ?_, fun demanded => rfl⟩
        cases hlater
        rfl
  bind {α β context first first' next next'} hfirst hnext hframes := by
    obtain ⟨hlength, hkeeping⟩ := hfirst hframes
    simp only [IgnoresKept, bind_apply]
    cases h : first context with
    | value result between =>
        have hbetween := hlength between (by rw [h]; rfl)
        have hne : between.frames ≠ [] := fun hnil => by
          rw [hnil] at hbetween
          exact hframes (List.length_eq_zero_iff.mp hbetween.symm)
        obtain ⟨hlength', hkeeping'⟩ := hnext result between h hne
        refine ⟨fun later hlater => (hlength' later hlater).trans hbetween, fun demanded => ?_⟩
        rw [hkeeping demanded, h]
        exact hkeeping' demanded
    | error failure between =>
        refine ⟨fun later hlater => ?_, fun demanded => ?_⟩
        · cases hlater
          exact hlength between (by rw [h]; rfl)
        · rw [hkeeping demanded, h]
          rfl
    | unfinished =>
        refine ⟨fun later hlater => ?_, fun demanded => ?_⟩
        · cases hlater
        · rw [hkeeping demanded, h]
          rfl
  inFrame {_ _ _} interner {_ _} hstep _ := .inFrame interner hstep

theorem IgnoresKept.located {α : Type} {context : Context} {step step' : Step α}
    (interner : Interner) (span : Span) (h : IgnoresKept context step step') :
    IgnoresKept context (Step.located interner span step) (Step.located interner span step') := by
  refine ⟨fun later hlater => h.1 later (context?_located ▸ hlater), fun demanded => ?_⟩
  simp only [Step.located]
  rw [h.2 demanded]
  cases step context <;> rfl

end Step

namespace Source
open Lexical

variable {source : Source}

theorem Situated.ignoresKept_evalReference {live : List NodeId} {id : NodeId} {context : Context}
    (h : source.Situated live id context) (recur recur' : NodeId → Step Value) (name : Name) :
    Step.IgnoresKept context (source.evalReference recur id name)
      (source.evalReference recur' id name) := by
  cases hdefinition : source.definitionOf? id name with
  | none =>
      simp only [evalReference, hdefinition]
      exact ⟨fun later hlater => by cases hlater; rfl, fun _ => rfl⟩
  | some definition =>
      cases definition with
      | bind bind =>
          obtain ⟨_, value, -, -, hread⟩ := h.evalReference_eq hdefinition
          refine ⟨fun later hlater => ?_, fun demanded => ?_⟩
          · rw [hread recur context.demanded] at hlater
            cases hlater
            rfl
          · rw [hread recur' demanded, hread recur context.demanded]
            rfl
      | structureDef structureId =>
          simp only [evalReference, hdefinition]
          exact ⟨fun later hlater => by cases hlater; rfl, fun _ => rfl⟩

/-- An evaluation in the course of that of the root ignores what was kept on demand. -/
theorem Situated.ignoresKept_eval (hsource : source.WellFormed) {live : List NodeId} {id : NodeId}
    {context : Context} {steps : Nat} (h : source.Situated live id context)
    (hkind : context.frames = [] → ∃ statements, source.kind id = .block statements) :
    Step.IgnoresKept context (source.eval steps id) (source.eval steps id) := by
  induction steps generalizing live id context with
  | zero => exact ⟨fun later hlater => (by cases hlater), fun _ => rfl⟩
  | succ steps ih =>
      refine .located _ _ ?_
      have hrecur (entered : Option NodeId) (node : NodeId) (later : Context)
          (hcalls : source.Calls (source.eval steps) id context entered node later)
          (hne : later.frames ≠ []) :
          Step.IgnoresKept later (source.eval steps node) (source.eval steps node) :=
        ih (h.of_calls hsource hcalls) fun hnil => absurd hnil hne
      by_cases hframes : context.frames = []
      · obtain ⟨statements, hblock⟩ := hkind hframes
        simp only [evalKind, hblock]
        refine .inFrame _ fun inner hinner => ?_
        exact evalSequence_congr Step.congruence_ignoresKept
          fun before node after _ later heq hbefore =>
            hrecur _ node later (.statement hblock heq hinner hbefore)
      · exact evalKind_congr Step.congruence_ignoresKept
          (fun name _ _ => h.ignoresKept_evalReference _ _ name) hrecur hframes

theorem Situated.value_isSome {live : List NodeId} {id : NodeId} {context : Context}
    (h : source.Situated live id context) {bind : BindNode} (hkind : source.kind id = .bind bind) :
    bind.value.isSome = true := by
  have hadmits := h.admits
  rw [hkind] at hadmits
  cases hvalue : bind.value with
  | none => simp [NodeKind.shape, hvalue, Place.admits] at hadmits
  | some node => rfl

/-- Evaluating the root of a program, no bind without a value is ever evaluated, and a name that
refers to a bind is read from the frame of the latest live activation that declares the bind. What
was kept on demand is neither looked at nor changed. -/
theorem evaluateRoot_reads_latest {name text : String} {interner : Interner} {source : Source}
    (h : (parse name text interner).1 = .ok source) (start : Context)
    (hcalls : start.callStack.frames = []) (hframes : start.frames = []) :
    (∀ steps live id context, source.Reached start steps live id context →
      source.Running live context.callStack.frames context.frames ∧
      (∀ bind, source.kind id = .bind bind → bind.value.isSome = true) ∧
      ∀ name bind, source.kind id = .reference name ∨ source.kind id = .memberName name →
        source.definitionOf? id name = some (.bind bind) →
        ∃ home value, source.declaring? bind = some home ∧
          LatestHolds home bind value live context.frames ∧
          ∀ recur, source.evalReference recur id name context = .value value context) ∧
    ∀ demanded, source.evaluateRoot { start with demanded } =
      ((source.evaluateRoot start).1, { (source.evaluateRoot start).2 with demanded }) := by
  have hsource := wellFormed_of_parse h
  refine ⟨fun steps live id context hreached => ?_, fun demanded => ?_⟩
  · have hsituated := situated_of_reached hsource hcalls hframes hreached
    refine ⟨hsituated.running, fun bind hkind => hsituated.value_isSome hkind,
      fun name bind _ hdefinition => ?_⟩
    obtain ⟨home, value, hhome, hlatest, hread⟩ := hsituated.evalReference_eq hdefinition
    exact ⟨home, value, hhome, hlatest, fun recur => hread recur context.demanded⟩
  · have hroot := Situated.root hsource hcalls hframes
    have hignores : Step.IgnoresKept start (source.eval (source.stepBound start) source.root) _ :=
      hroot.ignoresKept_eval hsource fun _ => hsource.root_kind
    have hbound : source.stepBound { start with demanded } = source.stepBound start := rfl
    simp only [evaluateRoot, evaluate, hbound]
    rw [hignores.2 demanded]
    cases source.eval (source.stepBound start) source.root start <;> rfl

/-- A structure that constructs itself, run where a value was kept for its input. -/
theorem evaluateRoot_reads_latest_of_recursion :
    ∃ source,
      (parse "<code>" "•P(n: 0) (m: if n < 1 then n else P(n - 1).m)\nP(2).m" .empty).1 =
        .ok source ∧
      let start : Context :=
        { callStack := { maxDepth := 512 }, demanded := [(⟨1⟩, .text "old")], owner := 0 }
      (∀ steps live id context, source.Reached start steps live id context →
        source.Running live context.callStack.frames context.frames ∧
        (∀ bind, source.kind id = .bind bind → bind.value.isSome = true) ∧
        ∀ name bind, source.kind id = .reference name ∨ source.kind id = .memberName name →
          source.definitionOf? id name = some (.bind bind) →
          ∃ home value, source.declaring? bind = some home ∧
            LatestHolds home bind value live context.frames ∧
            ∀ recur, source.evalReference recur id name context = .value value context) ∧
      ∀ demanded, source.evaluateRoot { start with demanded } =
        ((source.evaluateRoot start).1, { (source.evaluateRoot start).2 with demanded }) := by
  obtain ⟨source, h⟩ : ∃ source,
      (parse "<code>" "•P(n: 0) (m: if n < 1 then n else P(n - 1).m)\nP(2).m" .empty).1 =
        .ok source := exists_of_isOk (by decide +kernel)
  exact ⟨source, h, evaluateRoot_reads_latest h _ rfl rfl⟩

end Source
end Bindery
