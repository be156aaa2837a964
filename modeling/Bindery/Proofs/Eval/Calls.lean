import Bindery.Eval.Run

/-!
Which evaluations an evaluation asks for. A node is evaluated by evaluating other nodes in contexts
that the evaluations before them have left. The relation of calls names these, and what holds of two
evaluators at every call, and is kept by the ways in which steps are put together, holds of the
evaluation of the whole node.
-/

namespace Bindery

namespace Step

/-- A relation between steps run in a context that is kept by the ways in which the evaluator puts
steps together. -/
structure Congruence (R : (α : Type) → Context → Step α → Step α → Prop) : Prop where
  pure : ∀ {α : Type} (context : Context) (result : α),
    R α context (Pure.pure result) (Pure.pure result)
  fail : ∀ {α : Type} (context : Context) (fault : Fault),
    R α context (Step.fail fault) (Step.fail fault)
  bind : ∀ {α β : Type} {context : Context} {first first' : Step α} {next next' : α → Step β},
    R α context first first' →
    (∀ result later, first context = .value result later → R β later (next result) (next' result)) →
    R β context (first >>= next) (first' >>= next')
  record : ∀ (context : Context) (bind : NodeId) (value : Value),
    R Unit context (Step.record bind value) (Step.record bind value)
  build : ∀ (context : Context) (typeName : Name) (definition : NodeId) (properties : Properties),
    R Value context (Step.build typeName definition properties)
      (Step.build typeName definition properties)
  inFrame : ∀ {α : Type} {context : Context} {frame : CallFrame} (interner : Interner)
    {step step' : Step α},
    (∀ inner, context.enter frame = .ok inner → R α inner step step') →
    R α context (Step.inFrame interner frame step) (Step.inFrame interner frame step')

/-- A congruence that is also kept where values are looked up and kept on demand. -/
structure FullCongruence (R : (α : Type) → Context → Step α → Step α → Prop) : Prop
    extends Congruence R where
  lookup? : ∀ (context : Context) (bind : NodeId),
    R (Option Value) context (Step.lookup? bind) (Step.lookup? bind)
  keep : ∀ (context : Context) (bind : NodeId) (value : Value),
    R Unit context (Step.keep bind value) (Step.keep bind value)

theorem bind_of_value {α β : Type} {first : Step α} {next : α → Step β} {context later : Context}
    {result : α} (h : first context = .value result later) :
    (first >>= next) context = next result later := by
  show Step.bind first next context = _
  simp only [Step.bind, h]

theorem exists_of_bind_eq_value {α β : Type} {first : Step α} {next : α → Step β}
    {context later : Context} {result : β} (h : (first >>= next) context = .value result later) :
    ∃ a between, first context = .value a between ∧ next a between = .value result later := by
  change Step.bind first next context = _ at h
  cases hfirst : first context with
  | value a between => exact ⟨a, between, rfl, (bind_of_value hfirst).symm.trans h⟩
  | error error between | unfinished =>
      simp only [Step.bind, hfirst] at h
      cases h

theorem exists_of_inFrame_eq_value {α : Type} {interner : Interner} {frame : CallFrame}
    {step : Step α} {context later : Context} {result : α}
    (h : Step.inFrame interner frame step context = .value result later) :
    ∃ inner between, context.enter frame = .ok inner ∧ step inner = .value result between ∧
      later = between.leave := by
  simp only [Step.inFrame] at h
  cases henter : context.enter frame with
  | error failure =>
      rw [henter] at h
      cases h
  | ok inner =>
      cases hstep : step inner with
      | value result' between =>
          simp only [henter, hstep] at h
          cases h
          exact ⟨inner, between, rfl, hstep, rfl⟩
      | error | unfinished =>
          simp only [henter, hstep] at h
          cases h

theorem eq_value_of_located {α : Type} {interner : Interner} {span : Span} {step : Step α}
    {context later : Context} {result : α}
    (h : Step.located interner span step context = .value result later) :
    step context = .value result later := by
  simp only [Step.located] at h
  cases hstep : step context with
  | value => rwa [hstep] at h
  | error | unfinished =>
      rw [hstep] at h
      cases h

namespace Congruence

variable {R : (α : Type) → Context → Step α → Step α → Prop} (hR : Congruence R)
include hR

theorem ofExcept {α : Type} (context : Context) (result : Except Fault α) :
    R α context (Step.ofExcept result) (Step.ofExcept result) := by
  cases result with
  | ok result => exact hR.pure context result
  | error fault => exact hR.fail context fault

theorem checkType (source : Source) (context : Context) (type : Option DeclaredType)
    (value : Value) :
    R Unit context (source.checkType type value) (source.checkType type value) := by
  cases type with
  | none => exact hR.pure context ()
  | some type =>
      simp only [Source.checkType]
      split
      · exact hR.pure context ()
      · exact hR.fail context _

end Congruence
end Step

namespace Source

variable {source : Source}

/-- While `id` is evaluated, an instance is built in a frame of its own: the callee is the
structure, the arguments have come to `values`, and `inner` is the context in the frame. -/
structure Constructs (source : Source) (recur : NodeId → Step Value) (id : NodeId)
    (context : Context) (structureId : NodeId) (definition : StructureNode) (values : List Value)
    (inner : Context) : Prop where
  called : ∃ callee arguments name between later,
    source.kind id = .evaluate callee arguments ∧
    recur callee context = .value (.structureRef structureId name) between ∧
    evalEach recur (source.list arguments) between = .value values later ∧
    later.enter ⟨.construct structureId definition.name, source.span id⟩ = .ok inner
  defined : source.structure? structureId = some definition
  length_le : values.length ≤ (source.list definition.inputs).length

/-- `source.Calls recur id context entered node later`: while `id` is evaluated in `context`, nested
evaluations being left to `recur`, the node `node` is evaluated in `later`. In between a frame may
have been entered for the block or the structure `entered`. -/
inductive Calls (source : Source) (recur : NodeId → Step Value) (id : NodeId) (context : Context) :
    (entered : Option NodeId) → (node : NodeId) → (later : Context) → Prop
  | statement {statements before node after inner last later} :
      source.kind id = .block statements →
      source.list statements = before ++ node :: after →
      context.enter ⟨.block, source.span id⟩ = .ok inner →
      evalSequence recur .none before inner = .value last later →
      Calls source recur id context (some id) node later
  | value {bind node} : source.kind id = .bind bind → bind.value = some node →
      Calls source recur id context none node context
  | demanded {name node} : source.kind id = .reference name ∨ source.kind id = .memberName name →
      source.definitionOf? id name = some (.bind node) → context.lookup? node = none →
      Calls source recur id context none node context
  | subject {node member} : source.kind id = .property node member →
      Calls source recur id context none node context
  | callee {node arguments} : source.kind id = .evaluate node arguments →
      Calls source recur id context none node context
  | argument {callee arguments before node after called between values later} :
      source.kind id = .evaluate callee arguments →
      source.list arguments = before ++ node :: after →
      recur callee context = .value called between →
      evalEach recur before between = .value values later →
      Calls source recur id context none node later
  | default {structureId definition values inner before input after properties later bind node} :
      source.Constructs recur id context structureId definition values inner →
      source.list definition.inputs = before ++ input :: after →
      source.supplyInputs recur definition.name before values [] inner =
        .value properties later →
      values.length ≤ (before.filterMap source.bind?).length →
      source.bind? input = some bind → bind.value = some node →
      Calls source recur id context (some structureId) node later
  | bodyStatement {structureId definition values inner between before node after properties
      properties' later} :
      source.Constructs recur id context structureId definition values inner →
      source.supplyInputs recur definition.name (source.list definition.inputs) values [] inner =
        .value properties between →
      source.bodyStatements definition = before ++ node :: after →
      source.runBody recur before properties between = .value properties' later →
      Calls source recur id context (some structureId) node later
  | left {op node right} : source.kind id = .binary op node right →
      Calls source recur id context none node context
  | right {op left node value later} : source.kind id = .binary op left node →
      recur left context = .value value later → Calls source recur id context none node later
  | operand {op node} : source.kind id = .unary op node →
      Calls source recur id context none node context
  | condition {node yes no} : source.kind id = .conditional node yes no →
      Calls source recur id context none node context
  | branch {condition yes no choice later} : source.kind id = .conditional condition yes no →
      recur condition context = .value (.boolean choice) later →
      Calls source recur id context none (if choice then yes else no) later

/-- The value of an input: its argument, or else its default. -/
def inputValue (source : Source) (recur : NodeId → Step Value) (structureName : Name)
    (bind : BindNode) : (arguments : List Value) → Step Value
  | argument :: _ => pure argument
  | [] =>
    match bind.value with
    | some default => recur default
    | none => .fail (.missingInput (source.nameText structureName) (source.nameText bind.name))

theorem supplyInputs_cons {recur : NodeId → Step Value} {structureName : Name} {input : NodeId}
    {bind : BindNode} (hbind : source.bind? input = some bind) (rest : List NodeId)
    (arguments : List Value) (properties : Properties) :
    source.supplyInputs recur structureName (input :: rest) arguments properties =
      (do
        let value ← source.inputValue recur structureName bind arguments
        source.checkType bind.type value
        Step.record input value
        source.supplyInputs recur structureName rest arguments.tail
          (properties.set bind.name value)) := by
  simp only [supplyInputs, hbind]
  cases arguments with
  | cons argument arguments => rfl
  | nil => cases hvalue : bind.value <;> simp only [inputValue, hvalue]

theorem supplyInputs_cons_of_none {recur : NodeId → Step Value} {structureName : Name}
    {input : NodeId} (hbind : source.bind? input = none) (rest : List NodeId)
    (arguments : List Value) (properties : Properties) :
    source.supplyInputs recur structureName (input :: rest) arguments properties =
      source.supplyInputs recur structureName rest arguments properties := by
  simp only [supplyInputs, hbind]

theorem evalSequence_append (recur : NodeId → Step Value) (last : Value)
    (before after : List NodeId) :
    evalSequence recur last (before ++ after) =
      (do evalSequence recur (← evalSequence recur last before) after) := by
  induction before generalizing last with
  | nil => rfl
  | cons id rest ih => simp only [List.cons_append, evalSequence, ih, bind_assoc]

theorem evalEach_append (recur : NodeId → Step Value) (before after : List NodeId) :
    evalEach recur (before ++ after) =
      (do
        let values ← evalEach recur before
        let values' ← evalEach recur after
        return values ++ values') := by
  induction before with
  | nil => simp [evalEach]
  | cons id rest ih => simp [evalEach, ih]

theorem supplyInputs_append (recur : NodeId → Step Value) (structureName : Name)
    (before after : List NodeId) (arguments : List Value) (properties : Properties) :
    source.supplyInputs recur structureName (before ++ after) arguments properties =
      (do
        let properties ← source.supplyInputs recur structureName before arguments properties
        source.supplyInputs recur structureName after
          (arguments.drop (before.filterMap source.bind?).length) properties) := by
  induction before generalizing arguments properties with
  | nil => rfl
  | cons input rest ih =>
      cases hbind : source.bind? input with
      | none =>
          simp only [List.cons_append, supplyInputs_cons_of_none hbind, ih, List.filterMap_cons,
            hbind]
      | some bind =>
          simp only [List.cons_append, supplyInputs_cons hbind, ih, List.filterMap_cons, hbind,
            bind_assoc, List.length_cons, List.drop_tail]

theorem runBody_append (recur : NodeId → Step Value) (before after : List NodeId)
    (properties : Properties) :
    source.runBody recur (before ++ after) properties =
      (do source.runBody recur after (← source.runBody recur before properties)) := by
  induction before generalizing properties with
  | nil => rfl
  | cons id rest ih =>
      simp only [List.cons_append, runBody, bind_assoc]
      congr 1
      funext value
      cases source.bind? id <;> exact ih _

section Congruence

variable {R : (α : Type) → Context → Step α → Step α → Prop} (hR : Step.Congruence R)
  {recur recur' : NodeId → Step Value}
include hR

theorem evalSequence_congr {last : Value} {ids : List NodeId} {context : Context}
    (h : ∀ before id after value later, ids = before ++ id :: after →
      evalSequence recur last before context = .value value later →
      R Value later (recur id) (recur' id)) :
    R Value context (evalSequence recur last ids) (evalSequence recur' last ids) := by
  induction ids generalizing last context with
  | nil => exact hR.pure context last
  | cons id rest ih =>
      refine hR.bind (h [] id rest last context rfl rfl) fun value between hvalue => ?_
      refine ih fun before id' after value' later heq hbefore => ?_
      refine h (id :: before) id' after value' later (congrArg (id :: ·) heq) ?_
      exact (Step.bind_of_value hvalue).trans hbefore

theorem evalEach_congr {ids : List NodeId} {context : Context}
    (h : ∀ before id after values later, ids = before ++ id :: after →
      evalEach recur before context = .value values later →
      R Value later (recur id) (recur' id)) :
    R (List Value) context (evalEach recur ids) (evalEach recur' ids) := by
  induction ids generalizing context with
  | nil => exact hR.pure context []
  | cons id rest ih =>
      refine hR.bind (h [] id rest [] context rfl rfl) fun value between hvalue => ?_
      refine hR.bind (ih fun before id' after values later heq hbefore => ?_)
        fun values later _ => hR.pure later (value :: values)
      refine h (id :: before) id' after (value :: values) later (congrArg (id :: ·) heq) ?_
      exact (Step.bind_of_value hvalue).trans (Step.bind_of_value hbefore)

theorem supplyInputs_congr {structureName : Name} {inputs : List NodeId} {arguments : List Value}
    {properties : Properties} {context : Context}
    (h : ∀ before input after properties' later bind node, inputs = before ++ input :: after →
      source.supplyInputs recur structureName before arguments properties context =
        .value properties' later →
      arguments.length ≤ (before.filterMap source.bind?).length →
      source.bind? input = some bind → bind.value = some node →
      R Value later (recur node) (recur' node)) :
    R Properties context (source.supplyInputs recur structureName inputs arguments properties)
      (source.supplyInputs recur' structureName inputs arguments properties) := by
  induction inputs generalizing arguments properties context with
  | nil => exact hR.pure context properties
  | cons input rest ih =>
      cases hbind : source.bind? input with
      | none =>
          simp only [supplyInputs_cons_of_none hbind]
          refine ih fun before input' after properties' later bind node heq hbefore hlength => ?_
          refine h (input :: before) input' after properties' later bind node
            (congrArg (input :: ·) heq) ?_ ?_
          · rw [supplyInputs_cons_of_none hbind]
            exact hbefore
          · simp only [List.filterMap_cons, hbind]
            exact hlength
      | some bind =>
          simp only [supplyInputs_cons hbind]
          refine hR.bind ?_ fun value between hvalue => ?_
          · cases arguments with
            | cons argument arguments => exact hR.pure context argument
            | nil =>
                cases hnode : bind.value with
                | none =>
                    simp only [inputValue, hnode]
                    exact hR.fail context _
                | some node =>
                    simp only [inputValue, hnode]
                    exact h [] input rest properties context bind node rfl rfl (Nat.zero_le _)
                      hbind hnode
          · refine hR.bind (hR.checkType source between bind.type value) fun _ between' hcheck => ?_
            refine hR.bind (hR.record between' input value) fun _ between'' hrecord => ?_
            refine ih fun before input' after properties' later bind' node heq hbefore hlength => ?_
            refine h (input :: before) input' after properties' later bind' node
              (congrArg (input :: ·) heq) ?_ ?_
            · rw [supplyInputs_cons hbind]
              exact (Step.bind_of_value hvalue).trans
                ((Step.bind_of_value hcheck).trans ((Step.bind_of_value hrecord).trans hbefore))
            · simp only [List.filterMap_cons, hbind, List.length_cons]
              simp only [List.length_tail] at hlength
              omega

theorem runBody_congr {statements : List NodeId} {properties : Properties} {context : Context}
    (h : ∀ before id after properties' later, statements = before ++ id :: after →
      source.runBody recur before properties context = .value properties' later →
      R Value later (recur id) (recur' id)) :
    R Properties context (source.runBody recur statements properties)
      (source.runBody recur' statements properties) := by
  induction statements generalizing properties context with
  | nil => exact hR.pure context properties
  | cons id rest ih =>
      simp only [runBody]
      refine hR.bind (h [] id rest properties context rfl rfl) fun value between hvalue => ?_
      cases hbind : source.bind? id with
      | none =>
          refine ih fun before id' after properties' later heq hbefore => ?_
          refine h (id :: before) id' after properties' later (congrArg (id :: ·) heq) ?_
          simp only [runBody, hbind]
          exact (Step.bind_of_value hvalue).trans hbefore
      | some bind =>
          refine ih fun before id' after properties' later heq hbefore => ?_
          refine h (id :: before) id' after properties' later (congrArg (id :: ·) heq) ?_
          simp only [runBody, hbind]
          exact (Step.bind_of_value hvalue).trans hbefore

variable {id : NodeId} {context : Context}

theorem evalEvaluate_congr {callee : NodeId} {arguments : NodeRange}
    (hkind : source.kind id = .evaluate callee arguments)
    (h : ∀ entered node later, source.Calls recur id context entered node later →
      R Value later (recur node) (recur' node)) :
    R Value context (source.evalEvaluate recur id callee arguments)
      (source.evalEvaluate recur' id callee arguments) := by
  refine hR.bind (h _ _ _ (.callee hkind)) fun called between hcalled => ?_
  refine hR.bind (evalEach_congr hR fun before node after values later heq hbefore =>
    h _ _ _ (.argument hkind heq hcalled hbefore)) fun values later hvalues => ?_
  cases called with
  | structureRef structureId name =>
      simp only [construct]
      cases hdefined : source.structure? structureId with
      | none => exact hR.fail later _
      | some definition =>
          simp only
          split
          · exact hR.fail later _
          · refine hR.inFrame _ fun inner hinner => ?_
            have hconstructs : source.Constructs recur id context structureId definition values
                inner :=
              ⟨⟨callee, arguments, name, between, later, hkind, hcalled, hvalues, hinner⟩, hdefined,
                by omega⟩
            refine hR.bind (supplyInputs_congr hR
              fun before input after properties later bind node heq hbefore hlength hbind hnode =>
                h _ _ _ (.default hconstructs heq hbefore hlength hbind hnode))
              fun properties between hproperties => ?_
            refine hR.bind (runBody_congr hR fun before node after properties' later heq hbefore =>
              h _ _ _ (.bodyStatement hconstructs hproperties heq hbefore))
              fun properties' later _ => hR.build later _ _ _
  | none | text | number | boolean | inst | error => exact hR.fail later _

/-- What holds of two evaluators at every call holds of the evaluations of the node, references
being looked at on their own. -/
theorem evalKind_congr
    (href : ∀ name, source.kind id = .reference name ∨ source.kind id = .memberName name →
      R Value context (source.evalReference recur id name) (source.evalReference recur' id name))
    (h : ∀ entered node later, source.Calls recur id context entered node later →
      R Value later (recur node) (recur' node)) :
    R Value context (source.evalKind recur id) (source.evalKind recur' id) := by
  unfold evalKind
  cases hkind : source.kind id with
  | block statements =>
      refine hR.inFrame _ fun inner hinner => evalSequence_congr hR fun before node after _ later
        heq hbefore => h _ _ _ (.statement hkind heq hinner hbefore)
  | bind bind =>
      simp only [evalBind]
      cases hvalue : bind.value with
      | none => exact hR.fail context _
      | some node =>
          refine hR.bind (h _ _ _ (.value hkind hvalue)) fun value later _ => ?_
          refine hR.bind (hR.checkType source later bind.type value) fun _ later _ => ?_
          exact hR.bind (hR.record later id value) fun _ later _ => hR.pure later value
  | structureDef definition => exact hR.pure context _
  | property subject member =>
      exact hR.bind (h _ _ _ (.subject hkind)) fun value later _ => hR.ofExcept later _
  | memberName name => exact href name (.inr hkind)
  | reference name => exact href name (.inl hkind)
  | evaluate callee arguments => exact evalEvaluate_congr hR hkind h
  | number bits | text content | boolean value => exact hR.pure context _
  | binary op left right =>
      refine hR.bind (h _ _ _ (.left hkind)) fun value later hleft => ?_
      exact hR.bind (h _ _ _ (.right hkind hleft)) fun value' later _ => hR.ofExcept later _
  | unary op operand =>
      exact hR.bind (h _ _ _ (.operand hkind)) fun value later _ => hR.ofExcept later _
  | conditional condition yes no =>
      refine hR.bind (h _ _ _ (.condition hkind)) fun value later hcondition => ?_
      cases value with
      | boolean choice =>
          have hbranch := h _ _ _ (.branch hkind hcondition)
          cases choice with
          | true => exact hbranch
          | false => exact hbranch
      | none | text | number | structureRef | inst | error => exact hR.fail later _

end Congruence

section FullCongruence

variable {R : (α : Type) → Context → Step α → Step α → Prop} (hR : Step.FullCongruence R)
  {recur recur' : NodeId → Step Value} {id : NodeId} {context : Context}
include hR

theorem evalReference_congr {name : Name}
    (hkind : source.kind id = .reference name ∨ source.kind id = .memberName name)
    (h : ∀ entered node later, source.Calls recur id context entered node later →
      R Value later (recur node) (recur' node)) :
    R Value context (source.evalReference recur id name)
      (source.evalReference recur' id name) := by
  simp only [evalReference]
  cases hdefinition : source.definitionOf? id name with
  | none => exact hR.fail context _
  | some definition =>
      cases definition with
      | structureDef structureId => exact hR.pure context _
      | bind node =>
          refine hR.bind (hR.lookup? context node) fun found later hfound => ?_
          cases hfound
          cases hlookup : context.lookup? node with
          | some value => exact hR.pure context value
          | none =>
              have hcall := h _ _ _ (.demanded hkind hdefinition hlookup)
              refine hR.bind hcall fun value later _ => ?_
              exact hR.bind (hR.keep later node value) fun _ later _ => hR.pure later value

/-- What holds of two evaluators at every call holds of the evaluations of the node. -/
theorem evalKind_congr_of_calls
    (h : ∀ entered node later, source.Calls recur id context entered node later →
      R Value later (recur node) (recur' node)) :
    R Value context (source.evalKind recur id) (source.evalKind recur' id) :=
  evalKind_congr hR.toCongruence (fun _ hkind => evalReference_congr hR hkind h) h

end FullCongruence

end Source
end Bindery
