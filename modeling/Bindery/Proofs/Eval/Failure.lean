import Bindery.Proofs.Eval.Termination

/-!
Where an evaluation fails. No step of the evaluator catches an error, so what stops a nested
evaluation stops the evaluation that has asked for it, and only a frame that is left on the way
does something to the error. The other way round, an error is raised while the node itself is dealt
with, by one of a few rules, or it comes out of a call.
-/

namespace Bindery

/-- The fault is one of those that operators and properties find in values. -/
def Fault.OfValues : Fault → Prop
  | .typeMismatch .. | .undefinedProperty .. => True
  | .tooManyArguments .. | .missingInput .. | .stackOverflow _ | .undefinedName _ => False

/-- How a step stops that comes to no value: with an error and the context that is left behind, or
because it is left unfinished. -/
abbrev Stop := Option (EvalError × Context)

def Outcome.stopped {α : Type} : Stop → Outcome α
  | some (failure, later) => .error failure later
  | none => .unfinished

/-- A stop as it is seen from outside, where the frame of `entered` has been left. -/
def Stop.outOf (interner : Interner) (entered : Option NodeId) (stop : Stop) : Stop :=
  match entered with
  | none => stop
  | some _ => stop.map fun (failure, later) =>
      (later.callStack.attach failure interner, later.leave)

theorem fault_of_stopped {α : Type} {interner : Interner} {entered : Option NodeId}
    {failure error : EvalError} {between later : Context}
    (h : (Outcome.stopped (Stop.outOf interner entered (some (failure, between))) : Outcome α) =
      .error error later) :
    error.fault = failure.fault := by
  cases entered with
  | none => cases h; rfl
  | some structureId =>
      cases h
      exact CallStack.fault_attach ..

namespace Step

variable {α β : Type} {interner : Interner} {frame : CallFrame} {context inner later : Context}
  {first step : Step α} {next : α → Step β} {stop : Stop} {error : EvalError}

theorem bind_of_stopped (h : first context = .stopped stop) :
    (first >>= next) context = .stopped stop := by
  rw [bind_apply, h]
  cases stop <;> rfl

theorem inFrame_of_stopped (henter : context.enter frame = .ok inner)
    (h : step inner = .stopped stop) (entered : NodeId) :
    Step.inFrame interner frame step context =
      .stopped (stop.outOf interner (some entered)) := by
  simp only [Step.inFrame, henter, h]
  cases stop <;> rfl

/-- A frame that cannot be entered is an error in itself. -/
theorem inFrame_of_full (h : ¬ context.depth < context.maxDepth) :
    Step.inFrame interner frame step context =
      .error { fault := .stackOverflow context.maxDepth } context := by
  simp only [Step.inFrame, Context.enter_eq_error.mpr ⟨h, rfl⟩]

theorem exists_of_bind_eq_error (h : (first >>= next) context = .error error later) :
    first context = .error error later ∨ ∃ result between, first context = .value result between ∧
      next result between = .error error later := by
  rw [bind_apply] at h
  cases houtcome : first context with
  | value result between =>
      rw [houtcome] at h
      exact .inr ⟨result, between, rfl, h⟩
  | error error' later' =>
      rw [houtcome] at h
      exact .inl (by cases h; rfl)
  | unfinished =>
      rw [houtcome] at h
      cases h

theorem exists_of_inFrame_eq_error
    (h : Step.inFrame interner frame step context = .error error later) :
    ¬ context.depth < context.maxDepth ∨ ∃ inner error' later',
      context.enter frame = .ok inner ∧ step inner = .error error' later' := by
  simp only [Step.inFrame] at h
  cases henter : context.enter frame with
  | error => exact .inl (Context.enter_eq_error.mp henter).1
  | ok inner =>
      cases houtcome : step inner with
      | error error' later' => exact .inr ⟨inner, error', later', rfl, houtcome⟩
      | value | unfinished =>
          simp only [henter, houtcome] at h
          cases h

theorem exists_of_located_eq_error {span : Span}
    (h : Step.located interner span step context = .error error later) :
    ∃ failure, step context = .error failure later ∧
      error = later.callStack.attach (failure.orSpan span) interner := by
  simp only [Step.located] at h
  cases houtcome : step context with
  | error failure later' =>
      rw [houtcome] at h
      cases h
      exact ⟨failure, rfl, rfl⟩
  | value | unfinished =>
      rw [houtcome] at h
      cases h

theorem exists_of_ofExcept_eq_error {result : Except Fault α}
    (h : Step.ofExcept result context = .error error later) : ∃ fault, result = .error fault := by
  cases result with
  | ok value => cases h
  | error fault => exact ⟨fault, rfl⟩

end Step

namespace Source

variable {source : Source} {recur : NodeId → Step Value} {id node : NodeId}
  {context later : Context} {entered : Option NodeId}

/-- While `id` is evaluated, its callee has come to `called` and its arguments to `values`. -/
def Applies (source : Source) (recur : NodeId → Step Value) (id : NodeId) (context : Context)
    (called : Value) (values : List Value) (later : Context) : Prop :=
  ∃ callee arguments between, source.kind id = .evaluate callee arguments ∧
    recur callee context = .value called between ∧
    evalEach recur (source.list arguments) between = .value values later

/-- `source.Raises recur id context entered fault moment`: while `id` is evaluated in `context`,
nested evaluations being left to `recur`, an error is raised in `moment`, and no nested evaluation
is in progress then. The frame of the structure `entered` may have been entered before. -/
inductive Raises (source : Source) (recur : NodeId → Step Value) (id : NodeId)
    (context : Context) : (entered : Option NodeId) → Fault → (moment : Context) → Prop
  | blockRefused {statements} : source.kind id = .block statements →
      ¬ context.depth < context.maxDepth →
      Raises source recur id context none (.stackOverflow context.maxDepth) context
  | unvalued {bind} : source.kind id = .bind bind → bind.value = none →
      Raises source recur id context none
        (.missingInput (source.ownerName id) (source.nameText bind.name)) context
  | unaccepted {bind node value moment type} : source.kind id = .bind bind →
      bind.value = some node → recur node context = .value value moment →
      bind.type = some type → ¬ value.conforms type →
      Raises source recur id context none
        (.typeMismatch (type.describe source.interner) (value.typeName source.interner)) moment
  | undefined {name} : source.kind id = .reference name ∨ source.kind id = .memberName name →
      source.definitionOf? id name = none →
      Raises source recur id context none (.undefinedName (source.nameText name)) context
  | property {subject member value moment fault} : source.kind id = .property subject member →
      recur subject context = .value value moment →
      source.propertyOf value member = .error fault →
      Raises source recur id context none fault moment
  | notStructure {called values moment} : source.Applies recur id context called values moment →
      (∀ structureId name, called ≠ .structureRef structureId name) →
      Raises source recur id context none
        (.typeMismatch "structure" (called.typeName source.interner)) moment
  | notDefinition {structureId name values moment} :
      source.Applies recur id context (.structureRef structureId name) values moment →
      source.structure? structureId = none →
      Raises source recur id context none
        (.typeMismatch "structure definition" (source.kind structureId).describe) moment
  | tooMany {structureId name values moment definition} :
      source.Applies recur id context (.structureRef structureId name) values moment →
      source.structure? structureId = some definition →
      values.length > (source.list definition.inputs).length →
      Raises source recur id context none
        (.tooManyArguments (source.nameText definition.name)
          (source.list definition.inputs).length values.length) moment
  | constructionRefused {structureId name values moment definition} :
      source.Applies recur id context (.structureRef structureId name) values moment →
      source.structure? structureId = some definition →
      values.length ≤ (source.list definition.inputs).length → ¬ moment.depth < moment.maxDepth →
      Raises source recur id context none (.stackOverflow moment.maxDepth) moment
  | unsupplied {structureId definition values inner before input after properties moment bind} :
      source.Constructs recur id context structureId definition values inner →
      source.list definition.inputs = before ++ input :: after →
      source.supplyInputs recur definition.name before values [] inner =
        .value properties moment →
      values.length ≤ (before.filterMap source.bind?).length →
      source.bind? input = some bind → bind.value = none →
      Raises source recur id context (some structureId)
        (.missingInput (source.nameText definition.name) (source.nameText bind.name)) moment
  | inputUnaccepted {structureId definition values inner before input after properties between bind
      value moment type} :
      source.Constructs recur id context structureId definition values inner →
      source.list definition.inputs = before ++ input :: after →
      source.supplyInputs recur definition.name before values [] inner =
        .value properties between →
      source.bind? input = some bind →
      source.inputValue recur definition.name bind
        (values.drop (before.filterMap source.bind?).length) between = .value value moment →
      bind.type = some type → ¬ value.conforms type →
      Raises source recur id context (some structureId)
        (.typeMismatch (type.describe source.interner) (value.typeName source.interner)) moment
  | binary {op left right value value' between moment fault} :
      source.kind id = .binary op left right → recur left context = .value value between →
      recur right between = .value value' moment →
      op.apply source.interner value value' = .error fault →
      Raises source recur id context none fault moment
  | unary {op operand value moment fault} : source.kind id = .unary op operand →
      recur operand context = .value value moment →
      op.apply source.interner value = .error fault →
      Raises source recur id context none fault moment
  | condition {condition yes no value moment} : source.kind id = .conditional condition yes no →
      recur condition context = .value value moment → (∀ choice, value ≠ .boolean choice) →
      Raises source recur id context none
        (.typeMismatch "boolean" (value.typeName source.interner)) moment

/-! ### Outwards -/

section

variable {stop : Stop}

theorem evalSequence_of_stopped {last value : Value} {before after : List NodeId}
    (hbefore : evalSequence recur last before context = .value value later)
    (h : recur node later = .stopped stop) :
    evalSequence recur last (before ++ node :: after) context = .stopped stop := by
  rw [evalSequence_append, Step.bind_of_value hbefore]
  exact Step.bind_of_stopped h

theorem evalEach_of_stopped {before after : List NodeId} {values : List Value}
    (hbefore : evalEach recur before context = .value values later)
    (h : recur node later = .stopped stop) :
    evalEach recur (before ++ node :: after) context = .stopped stop := by
  rw [evalEach_append, Step.bind_of_value hbefore]
  exact Step.bind_of_stopped (Step.bind_of_stopped h)

theorem checkType_of_not_conforms {type : DeclaredType} {value : Value}
    (h : ¬ value.conforms type) :
    source.checkType (some type) value =
      .fail (.typeMismatch (type.describe source.interner) (value.typeName source.interner)) := by
  simp only [checkType, if_neg h]

theorem Applies.evalKind_eq {structureId : NodeId} {name : Name} {values : List Value}
    (h : source.Applies recur id context (.structureRef structureId name) values later) :
    source.evalKind recur id context =
      source.construct recur structureId values (source.span id) later := by
  obtain ⟨callee, arguments, between, hkind, hcallee, harguments⟩ := h
  simp only [evalKind, hkind, evalEvaluate]
  rw [Step.bind_of_value hcallee, Step.bind_of_value harguments]

/-- What stops a construction in its frame stops the evaluation that has entered it. -/
theorem Constructs.evalKind_of_stopped {structureId : NodeId} {definition : StructureNode}
    {values : List Value} {inner : Context}
    (h : source.Constructs recur id context structureId definition values inner)
    (hstop : (do
      let properties ← source.supplyInputs recur definition.name (source.list definition.inputs)
        values []
      let properties ← source.runBody recur (source.bodyStatements definition) properties
      Step.build definition.name structureId properties : Step Value) inner = .stopped stop) :
    source.evalKind recur id context =
      .stopped (stop.outOf source.interner (some structureId)) := by
  obtain ⟨callee, arguments, name, between, outer, hkind, hcallee, harguments, henter⟩ := h.called
  have happlies : source.Applies recur id context (.structureRef structureId name) values outer :=
    ⟨callee, arguments, between, hkind, hcallee, harguments⟩
  rw [happlies.evalKind_eq]
  simp only [construct, h.defined, if_neg (Nat.not_lt.mpr h.length_le)]
  exact Step.inFrame_of_stopped henter hstop structureId

/-- Where the supply of an input stops, so does the construction. -/
theorem Constructs.evalKind_of_input_stopped {structureId : NodeId} {definition : StructureNode}
    {values : List Value} {inner : Context} {before after : List NodeId} {input : NodeId}
    {properties : Properties}
    (h : source.Constructs recur id context structureId definition values inner)
    (hlist : source.list definition.inputs = before ++ input :: after)
    (hbefore : source.supplyInputs recur definition.name before values [] inner =
      .value properties later)
    (hstop : source.supplyInputs recur definition.name (input :: after)
      (values.drop (before.filterMap source.bind?).length) properties later = .stopped stop) :
    source.evalKind recur id context =
      .stopped (stop.outOf source.interner (some structureId)) := by
  refine h.evalKind_of_stopped (Step.bind_of_stopped ?_)
  rw [hlist, supplyInputs_append, Step.bind_of_value hbefore]
  exact hstop

/-- What stops a node that is called stops the node that calls it. -/
theorem Calls.evalKind_of_stopped (h : source.Calls recur id context entered node later)
    (hstop : recur node later = .stopped stop) :
    source.evalKind recur id context = .stopped (stop.outOf source.interner entered) := by
  cases h with
  | statement hkind hlist henter hbefore =>
      simp only [evalKind, hkind, evalBlock, hlist]
      exact Step.inFrame_of_stopped henter (evalSequence_of_stopped hbefore hstop) id
  | value hkind hvalue =>
      simp only [evalKind, hkind, evalBind, hvalue]
      exact Step.bind_of_stopped hstop
  | demanded hkind hdefinition hlookup =>
      have hreference {name : Name} (hdefinition : source.definitionOf? id name =
          some (.bind node)) : source.evalReference recur id name context = .stopped stop := by
        simp only [evalReference, hdefinition, Step.bind_apply, Step.lookup?, hlookup]
        exact Step.bind_of_stopped hstop
      rcases hkind with hkind | hkind
      · simp only [evalKind, hkind]
        exact hreference hdefinition
      · simp only [evalKind, hkind]
        exact hreference hdefinition
  | subject hkind =>
      simp only [evalKind, hkind, evalProperty]
      exact Step.bind_of_stopped hstop
  | callee hkind =>
      simp only [evalKind, hkind, evalEvaluate]
      exact Step.bind_of_stopped hstop
  | argument hkind hlist hcallee hbefore =>
      simp only [evalKind, hkind, evalEvaluate, hlist]
      rw [Step.bind_of_value hcallee]
      exact Step.bind_of_stopped (evalEach_of_stopped hbefore hstop)
  | default hconstructs hlist hbefore hlength hbind hvalue =>
      refine hconstructs.evalKind_of_input_stopped hlist hbefore ?_
      rw [List.drop_eq_nil_of_le hlength, supplyInputs_cons hbind]
      refine Step.bind_of_stopped ?_
      simp only [inputValue, hvalue]
      exact hstop
  | bodyStatement hconstructs hinputs hlist hbefore =>
      refine hconstructs.evalKind_of_stopped ?_
      rw [Step.bind_of_value hinputs, hlist, runBody_append]
      refine Step.bind_of_stopped ?_
      rw [Step.bind_of_value hbefore]
      exact Step.bind_of_stopped hstop
  | left hkind =>
      simp only [evalKind, hkind, evalBinary]
      exact Step.bind_of_stopped hstop
  | right hkind hleft =>
      simp only [evalKind, hkind, evalBinary]
      rw [Step.bind_of_value hleft]
      exact Step.bind_of_stopped hstop
  | operand hkind =>
      simp only [evalKind, hkind, evalUnary]
      exact Step.bind_of_stopped hstop
  | condition hkind =>
      simp only [evalKind, hkind, evalConditional]
      exact Step.bind_of_stopped hstop
  | @branch _ _ _ choice _ hkind hcondition =>
      simp only [evalKind, hkind, evalConditional]
      rw [Step.bind_of_value hcondition]
      cases choice with
      | true => exact hstop
      | false => exact hstop

theorem Calls.evalKind_of_error {error : EvalError} {last : Context}
    (h : source.Calls recur id context entered node later) (herror : recur node later =
      .error error last) :
    source.evalKind recur id context =
      .stopped (Stop.outOf source.interner entered (some (error, last))) :=
  h.evalKind_of_stopped (show recur node later = .stopped (some (error, last)) from herror)

/-- An error that is raised is what the evaluation of the node comes to, but for the frame that is
left. -/
theorem Raises.evalKind_eq {fault : Fault} {moment : Context}
    (h : source.Raises recur id context entered fault moment) :
    source.evalKind recur id context =
      .stopped (Stop.outOf source.interner entered (some ({ fault }, moment))) := by
  cases h with
  | blockRefused hkind hfull =>
      simp only [evalKind, hkind, evalBlock]
      exact Step.inFrame_of_full hfull
  | unvalued hkind hvalue =>
      simp only [evalKind, hkind, evalBind, hvalue]
      rfl
  | unaccepted hkind hvalue hnode htype hconforms =>
      simp only [evalKind, hkind, evalBind, hvalue, htype]
      rw [Step.bind_of_value hnode, checkType_of_not_conforms hconforms]
      rfl
  | undefined hkind hdefinition =>
      rcases hkind with hkind | hkind
      · simp only [evalKind, hkind, evalReference, hdefinition]
        rfl
      · simp only [evalKind, hkind, evalReference, hdefinition]
        rfl
  | property hkind hsubject hproperty =>
      simp only [evalKind, hkind, evalProperty]
      rw [Step.bind_of_value hsubject, hproperty]
      rfl
  | @notStructure called _ _ happlies hcalled =>
      obtain ⟨callee, arguments, between, hkind, hcallee, harguments⟩ := happlies
      simp only [evalKind, hkind, evalEvaluate]
      rw [Step.bind_of_value hcallee, Step.bind_of_value harguments]
      cases called with
      | structureRef structureId name => exact absurd rfl (hcalled structureId name)
      | none | text | number | boolean | inst | error => rfl
  | notDefinition happlies hdefined =>
      rw [happlies.evalKind_eq]
      simp only [construct, hdefined]
      rfl
  | tooMany happlies hdefined hlength =>
      rw [happlies.evalKind_eq]
      simp only [construct, hdefined, if_pos hlength]
      rfl
  | constructionRefused happlies hdefined hlength hfull =>
      rw [happlies.evalKind_eq]
      simp only [construct, hdefined, if_neg (Nat.not_lt.mpr hlength)]
      exact Step.inFrame_of_full hfull
  | unsupplied hconstructs hlist hbefore hlength hbind hvalue =>
      refine hconstructs.evalKind_of_input_stopped hlist hbefore ?_
      rw [List.drop_eq_nil_of_le hlength, supplyInputs_cons hbind]
      refine Step.bind_of_stopped ?_
      simp only [inputValue, hvalue]
      rfl
  | inputUnaccepted hconstructs hlist hbefore hbind hvalue htype hconforms =>
      refine hconstructs.evalKind_of_input_stopped hlist hbefore ?_
      rw [supplyInputs_cons hbind, Step.bind_of_value hvalue, htype,
        checkType_of_not_conforms hconforms]
      rfl
  | binary hkind hleft hright hoperator =>
      simp only [evalKind, hkind, evalBinary]
      rw [Step.bind_of_value hleft, Step.bind_of_value hright, hoperator]
      rfl
  | unary hkind hoperand hoperator =>
      simp only [evalKind, hkind, evalUnary]
      rw [Step.bind_of_value hoperand, hoperator]
      rfl
  | @condition _ _ _ value _ hkind hcondition hvalue =>
      simp only [evalKind, hkind, evalConditional]
      rw [Step.bind_of_value hcondition]
      cases value with
      | boolean choice => exact absurd rfl (hvalue choice)
      | none | text | number | structureRef | inst | error => rfl

end

/-! ### Inwards -/

section

variable {error : EvalError}

/-- The node raises an error itself, or a node that it calls fails. -/
def Fails (source : Source) (recur : NodeId → Step Value) (id : NodeId) (context : Context) :
    Prop :=
  (∃ entered fault moment, source.Raises recur id context entered fault moment) ∨
  ∃ entered node between error later, source.Calls recur id context entered node between ∧
    recur node between = .error error later

theorem exists_of_evalSequence_eq_error {last : Value} {ids : List NodeId}
    (h : evalSequence recur last ids context = .error error later) :
    ∃ before node after value between, ids = before ++ node :: after ∧
      evalSequence recur last before context = .value value between ∧
      recur node between = .error error later := by
  induction ids generalizing last context with
  | nil => cases h
  | cons id rest ih =>
      rcases Step.exists_of_bind_eq_error h with h | ⟨value, between, hvalue, h⟩
      · exact ⟨[], id, rest, last, context, rfl, rfl, h⟩
      · obtain ⟨before, node, after, value', between', rfl, hbefore, hnode⟩ := ih h
        exact ⟨id :: before, node, after, value', between', rfl,
          (Step.bind_of_value hvalue).trans hbefore, hnode⟩

theorem exists_of_evalEach_eq_error {ids : List NodeId}
    (h : evalEach recur ids context = .error error later) :
    ∃ before node after values between, ids = before ++ node :: after ∧
      evalEach recur before context = .value values between ∧
      recur node between = .error error later := by
  induction ids generalizing context with
  | nil => cases h
  | cons id rest ih =>
      rcases Step.exists_of_bind_eq_error h with h | ⟨value, between, hvalue, h⟩
      · exact ⟨[], id, rest, [], context, rfl, rfl, h⟩
      rcases Step.exists_of_bind_eq_error h with h | ⟨_, _, -, h⟩
      · obtain ⟨before, node, after, values, between', rfl, hbefore, hnode⟩ := ih h
        exact ⟨id :: before, node, after, value :: values, between', rfl,
          (Step.bind_of_value hvalue).trans (Step.bind_of_value hbefore), hnode⟩
      · cases h

theorem exists_of_checkType_eq_error {type? : Option DeclaredType} {value : Value}
    (h : source.checkType type? value context = .error error later) :
    ∃ type, type? = some type ∧ ¬ value.conforms type := by
  simp only [checkType] at h
  split at h
  · cases h
  · rename_i type
    split at h
    · cases h
    · exact ⟨type, rfl, ‹_›⟩

/-- The supply of inputs fails at the first one that has no value, or none that it accepts. -/
theorem exists_of_supplyInputs_eq_error {structureName : Name} {inputs : List NodeId}
    {arguments : List Value} {properties : Properties}
    (h : source.supplyInputs recur structureName inputs arguments properties context =
      .error error later) :
    ∃ before input after properties' between bind, inputs = before ++ input :: after ∧
      source.supplyInputs recur structureName before arguments properties context =
        .value properties' between ∧
      source.bind? input = some bind ∧
      let rest := arguments.drop (before.filterMap source.bind?).length
      (source.inputValue recur structureName bind rest between = .error error later ∨
        ∃ value supplied,
          source.inputValue recur structureName bind rest between = .value value supplied ∧
          source.checkType bind.type value supplied = .error error later) := by
  induction inputs generalizing arguments properties context with
  | nil => cases h
  | cons input rest ih =>
      cases hbind : source.bind? input with
      | none =>
          rw [supplyInputs_cons_of_none hbind] at h
          obtain ⟨before, input', after, properties', between, bind, rfl, hbefore, hfails⟩ := ih h
          refine ⟨input :: before, input', after, properties', between, bind, rfl, ?_, ?_⟩
          · rw [supplyInputs_cons_of_none hbind]
            exact hbefore
          · simp only [List.filterMap_cons, hbind]
            exact hfails
      | some bind =>
          rw [supplyInputs_cons hbind] at h
          rcases Step.exists_of_bind_eq_error h with h | ⟨value, supplied, hvalue, h⟩
          · exact ⟨[], input, rest, properties, context, bind, rfl, rfl, hbind, .inl h⟩
          rcases Step.exists_of_bind_eq_error h with h | ⟨_, checked, hcheck, h⟩
          · exact ⟨[], input, rest, properties, context, bind, rfl, rfl, hbind,
              .inr ⟨value, supplied, hvalue, h⟩⟩
          rcases Step.exists_of_bind_eq_error h with h | ⟨_, recorded, hrecord, h⟩
          · cases h
          obtain ⟨before, input', after, properties', between, bind', rfl, hbefore, hbind',
            hfails⟩ := ih h
          refine ⟨input :: before, input', after, properties', between, bind', rfl, ?_, hbind', ?_⟩
          · rw [supplyInputs_cons hbind]
            exact (Step.bind_of_value hvalue).trans
              ((Step.bind_of_value hcheck).trans ((Step.bind_of_value hrecord).trans hbefore))
          · simp only [List.filterMap_cons, hbind, List.length_cons]
            rw [← List.drop_tail]
            exact hfails

theorem exists_of_runBody_eq_error {ids : List NodeId} {properties : Properties}
    (h : source.runBody recur ids properties context = .error error later) :
    ∃ before node after properties' between, ids = before ++ node :: after ∧
      source.runBody recur before properties context = .value properties' between ∧
      recur node between = .error error later := by
  induction ids generalizing properties context with
  | nil => cases h
  | cons id rest ih =>
      rcases Step.exists_of_bind_eq_error h with h | ⟨value, between, hvalue, h⟩
      · exact ⟨[], id, rest, properties, context, rfl, rfl, h⟩
      cases hbind : source.bind? id with
      | none | some bind =>
          simp only [hbind] at h
          obtain ⟨before, node, after, properties', between', rfl, hbefore, hnode⟩ := ih h
          refine ⟨id :: before, node, after, properties', between', rfl, ?_, hnode⟩
          simp only [runBody]
          rw [Step.bind_of_value hvalue]
          simp only [hbind]
          exact hbefore

namespace Fails

theorem of_raises {fault : Fault} {moment : Context}
    (h : source.Raises recur id context entered fault moment) : source.Fails recur id context :=
  .inl ⟨entered, fault, moment, h⟩

theorem of_calls (h : source.Calls recur id context entered node later) {between : Context}
    (hnode : recur node later = .error error between) : source.Fails recur id context :=
  .inr ⟨entered, node, later, error, between, h, hnode⟩

theorem of_supplyInputs {structureId : NodeId} {definition : StructureNode} {values : List Value}
    {inner : Context}
    (hconstructs : source.Constructs recur id context structureId definition values inner)
    (h : source.supplyInputs recur definition.name (source.list definition.inputs) values [] inner =
      .error error later) :
    source.Fails recur id context := by
  obtain ⟨before, input, after, properties, between, bind, hlist, hbefore, hbind, hfails⟩ :=
    exists_of_supplyInputs_eq_error h
  rcases hfails with hfails | ⟨value, moment, hvalue, hfails⟩
  · -- Only a default can fail: an argument has its value already.
    cases hrest : values.drop (before.filterMap source.bind?).length with
    | cons argument arguments =>
        rw [hrest] at hfails
        cases hfails
    | nil =>
        have hcount := List.drop_eq_nil_iff.mp hrest
        rw [hrest] at hfails
        cases hnode : bind.value with
        | none => exact of_raises (.unsupplied hconstructs hlist hbefore hcount hbind hnode)
        | some node =>
            simp only [inputValue, hnode] at hfails
            exact of_calls (.default hconstructs hlist hbefore hcount hbind hnode) hfails
  · obtain ⟨type, htype, hconforms⟩ := exists_of_checkType_eq_error hfails
    exact of_raises (.inputUnaccepted hconstructs hlist hbefore hbind hvalue htype hconforms)

theorem of_construct {structureId : NodeId} {name : Name} {values : List Value} {outer : Context}
    (happlies : source.Applies recur id context (.structureRef structureId name) values outer)
    (h : source.construct recur structureId values (source.span id) outer = .error error later) :
    source.Fails recur id context := by
  simp only [construct] at h
  cases hdefined : source.structure? structureId with
  | none => exact of_raises (.notDefinition happlies hdefined)
  | some definition =>
      simp only [hdefined] at h
      by_cases hlength : values.length > (source.list definition.inputs).length
      · exact of_raises (.tooMany happlies hdefined hlength)
      rw [if_neg hlength] at h
      have hlength := Nat.not_lt.mp hlength
      rcases Step.exists_of_inFrame_eq_error h with hfull | ⟨inner, error', later', henter, h⟩
      · exact of_raises (.constructionRefused happlies hdefined hlength hfull)
      obtain ⟨callee, arguments, between, hkind, hcallee, harguments⟩ := happlies
      have hconstructs : source.Constructs recur id context structureId definition values inner :=
        ⟨⟨callee, arguments, name, between, outer, hkind, hcallee, harguments, henter⟩, hdefined,
          hlength⟩
      rcases Step.exists_of_bind_eq_error h with h | ⟨properties, supplied, hinputs, h⟩
      · exact of_supplyInputs hconstructs h
      rcases Step.exists_of_bind_eq_error h with h | ⟨properties', ran, -, h⟩
      · obtain ⟨before, node, after, properties', between, hlist, hbefore, hnode⟩ :=
          exists_of_runBody_eq_error h
        exact of_calls (.bodyStatement hconstructs hinputs hlist hbefore) hnode
      · cases h

theorem of_evalReference {name : Name}
    (hkind : source.kind id = .reference name ∨ source.kind id = .memberName name)
    (h : source.evalReference recur id name context = .error error later) :
    source.Fails recur id context := by
  simp only [evalReference] at h
  cases hdefinition : source.definitionOf? id name with
  | none => exact of_raises (.undefined hkind hdefinition)
  | some definition =>
      cases definition with
      | structureDef structureId =>
          rw [hdefinition] at h
          cases h
      | bind node =>
          simp only [hdefinition, Step.bind_apply, Step.lookup?] at h
          cases hlookup : context.lookup? node with
          | some value =>
              rw [hlookup] at h
              cases h
          | none =>
              rw [hlookup] at h
              rcases Step.exists_of_bind_eq_error h with h | ⟨_, _, -, h⟩
              · exact of_calls (.demanded hkind hdefinition hlookup) h
              · cases h

/-- An error of a node is one that it raises or one that comes out of a call. -/
theorem of_evalKind (h : source.evalKind recur id context = .error error later) :
    source.Fails recur id context := by
  unfold evalKind at h
  cases hkind : source.kind id with
  | block statements =>
      simp only [hkind] at h
      rcases Step.exists_of_inFrame_eq_error h with hfull | ⟨inner, error', later', henter, h⟩
      · exact of_raises (.blockRefused hkind hfull)
      · obtain ⟨before, node, after, value, between, hlist, hbefore, hnode⟩ :=
          exists_of_evalSequence_eq_error h
        exact of_calls (.statement hkind hlist henter hbefore) hnode
  | bind bind =>
      simp only [hkind, evalBind] at h
      cases hvalue : bind.value with
      | none => exact of_raises (.unvalued hkind hvalue)
      | some node =>
          rw [hvalue] at h
          rcases Step.exists_of_bind_eq_error h with h | ⟨value, moment, hnode, h⟩
          · exact of_calls (.value hkind hvalue) h
          rcases Step.exists_of_bind_eq_error h with h | ⟨_, _, -, h⟩
          · obtain ⟨type, htype, hconforms⟩ := exists_of_checkType_eq_error h
            exact of_raises (.unaccepted hkind hvalue hnode htype hconforms)
          · cases h
  | structureDef | number | text | boolean =>
      simp only [hkind] at h
      cases h
  | property subject member =>
      simp only [hkind] at h
      rcases Step.exists_of_bind_eq_error h with h | ⟨value, moment, hsubject, h⟩
      · exact of_calls (.subject hkind) h
      · obtain ⟨fault, hproperty⟩ := Step.exists_of_ofExcept_eq_error h
        exact of_raises (.property hkind hsubject hproperty)
  | memberName name =>
      simp only [hkind] at h
      exact of_evalReference (.inr hkind) h
  | reference name =>
      simp only [hkind] at h
      exact of_evalReference (.inl hkind) h
  | evaluate callee arguments =>
      simp only [hkind, evalEvaluate] at h
      rcases Step.exists_of_bind_eq_error h with h | ⟨called, between, hcallee, h⟩
      · exact of_calls (.callee hkind) h
      rcases Step.exists_of_bind_eq_error h with h | ⟨values, moment, harguments, h⟩
      · obtain ⟨before, node, after, values, between', hlist, hbefore, hnode⟩ :=
          exists_of_evalEach_eq_error h
        exact of_calls (.argument hkind hlist hcallee hbefore) hnode
      have happlies : source.Applies recur id context called values moment :=
        ⟨callee, arguments, between, hkind, hcallee, harguments⟩
      cases called with
      | structureRef structureId name => exact of_construct happlies h
      | none | text | number | boolean | inst | error =>
          exact of_raises (.notStructure happlies fun _ _ heq => by cases heq)
  | binary op left right =>
      simp only [hkind] at h
      rcases Step.exists_of_bind_eq_error h with h | ⟨value, between, hleft, h⟩
      · exact of_calls (.left hkind) h
      rcases Step.exists_of_bind_eq_error h with h | ⟨value', moment, hright, h⟩
      · exact of_calls (.right hkind hleft) h
      · obtain ⟨fault, hoperator⟩ := Step.exists_of_ofExcept_eq_error h
        exact of_raises (.binary hkind hleft hright hoperator)
  | unary op operand =>
      simp only [hkind] at h
      rcases Step.exists_of_bind_eq_error h with h | ⟨value, moment, hoperand, h⟩
      · exact of_calls (.operand hkind) h
      · obtain ⟨fault, hoperator⟩ := Step.exists_of_ofExcept_eq_error h
        exact of_raises (.unary hkind hoperand hoperator)
  | conditional condition yes no =>
      simp only [hkind, evalConditional] at h
      rcases Step.exists_of_bind_eq_error h with h | ⟨value, moment, hcondition, h⟩
      · exact of_calls (.condition hkind) h
      cases value with
      | boolean choice =>
          have hbranch : recur (if choice then yes else no) moment = .error error later := by
            cases choice with
            | true => exact h
            | false => exact h
          exact of_calls (.branch hkind hcondition) hbranch
      | none | text | number | structureRef | inst | error =>
          exact of_raises (.condition hkind hcondition fun _ heq => by cases heq)

end Fails
end

/-! ### Faults of operators -/

theorem ofValues_of_binary {interner : Interner} {op : BinaryOp} {left right : Value}
    {fault : Fault} (h : op.apply interner left right = .error fault) : fault.OfValues := by
  unfold BinaryOp.apply at h
  split at h <;> cases h
  trivial

theorem ofValues_of_unary {interner : Interner} {op : UnaryOp} {operand : Value} {fault : Fault}
    (h : op.apply interner operand = .error fault) : fault.OfValues := by
  unfold UnaryOp.apply at h
  split at h <;> cases h
  trivial

theorem ofValues_of_propertyOf {subject : Value} {member : NodeId} {fault : Fault}
    (h : source.propertyOf subject member = .error fault) : fault.OfValues := by
  unfold propertyOf at h
  split at h
  · split at h
    · split at h <;> cases h
      trivial
    · cases h
      trivial
  · cases h
    trivial

end Source
end Bindery
