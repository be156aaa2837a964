import Bindery.Proofs.Eval.Activation
import Bindery.Proofs.Eval.Failure
import Bindery.Proofs.Eval.Twin

/-!
Evaluations that exceed the depth limit. What is stuck at one node is stuck at every node whose
evaluation is in progress, up to the root. The other way round, the error starts at a block or a
construction to which a frame is refused: every other node that fails with it has called one that
did.
-/

namespace Bindery

theorem EvalError.overflows_attach {stack : CallStack} {error : EvalError} {interner : Interner} :
    (stack.attach error interner).Overflows ↔ error.Overflows := by
  rw [Overflows, CallStack.fault_attach, Overflows]

/-- The step has stopped because of the limit, or it is left unfinished. -/
def Stop.Overflows : Stop → Prop
  | some (failure, _) => failure.Overflows
  | none => True

theorem Stop.Overflows.outOf {stop : Stop} (h : stop.Overflows) (interner : Interner)
    (entered : Option NodeId) : (stop.outOf interner entered).Overflows := by
  cases entered with
  | none => exact h
  | some structureId =>
      cases stop with
      | none => trivial
      | some stopped => exact EvalError.overflows_attach.mpr h

namespace Outcome

variable {α : Type} {outcome : Outcome α}

/-- The step has failed because the call stack exceeds its limit. -/
def Overflows : Outcome α → Prop
  | .error failure _ => failure.Overflows
  | .value _ _ | .unfinished => False

/-- Nothing comes of the step: it exceeds the limit, or it is left unfinished. -/
def Stuck : Outcome α → Prop
  | .error failure _ => failure.Overflows
  | .value _ _ => False
  | .unfinished => True

theorem stuck_iff : outcome.Stuck ↔ ∃ stop : Stop, outcome = .stopped stop ∧ stop.Overflows := by
  constructor
  · intro h
    cases outcome with
    | value => exact h.elim
    | error failure later => exact ⟨some (failure, later), rfl, h⟩
    | unfinished => exact ⟨none, rfl, trivial⟩
  · rintro ⟨stop, rfl, h⟩
    cases stop with
    | none => trivial
    | some stopped => exact h

end Outcome

namespace Step

variable {α β : Type} {interner : Interner} {context inner : Context} {first step : Step α}
  {next : α → Step β}

theorem stuck_bind (h : (first context).Stuck) : ((first >>= next) context).Stuck := by
  obtain ⟨stop, hstop, hover⟩ := Outcome.stuck_iff.mp h
  exact Outcome.stuck_iff.mpr ⟨stop, bind_of_stopped hstop, hover⟩

theorem stuck_located {span : Span} (h : (step context).Stuck) :
    (Step.located interner span step context).Stuck := by
  simp only [Step.located]
  cases houtcome : step context with
  | value => exact (houtcome ▸ h : Outcome.Stuck (.value _ _)).elim
  | error error later =>
      rw [houtcome] at h
      exact h.of_fault_eq (CallStack.fault_attach ..)
  | unfinished => trivial

theorem overflows_located {span : Span} (h : (Step.located interner span step context).Overflows) :
    (step context).Overflows := by
  simp only [Step.located] at h
  cases houtcome : step context with
  | value | unfinished =>
      rw [houtcome] at h
      exact h
  | error error later =>
      rw [houtcome] at h
      have hplaced : (error.orSpan span).Overflows := EvalError.overflows_attach.mp h
      exact hplaced

theorem stuck_inFrame {frame : CallFrame} (henter : context.enter frame = .ok inner)
    (h : (step inner).Stuck) : (Step.inFrame interner frame step context).Stuck := by
  obtain ⟨stop, hstop, hover⟩ := Outcome.stuck_iff.mp h
  exact Outcome.stuck_iff.mpr ⟨_, inFrame_of_stopped henter hstop ⟨0⟩, hover.outOf _ _⟩

theorem stuck_inFrame_of_full {frame : CallFrame} (h : ¬ context.depth < context.maxDepth) :
    (Step.inFrame interner frame step context).Stuck := by
  rw [inFrame_of_full h]
  exact ⟨context.maxDepth, rfl⟩

end Step

namespace Source

variable {source : Source} {recur : NodeId → Step Value}

/-! ### Outwards -/

section

variable {id node : NodeId} {context later : Context} {entered : Option NodeId}

/-- What is stuck in the frame of a construction is stuck outside of it. -/
theorem Constructs.stuck {structureId : NodeId} {definition : StructureNode} {values : List Value}
    {inner : Context}
    (h : source.Constructs recur id context structureId definition values inner)
    (hstuck : ((do
      let properties ← source.supplyInputs recur definition.name (source.list definition.inputs)
        values []
      let properties ← source.runBody recur (source.bodyStatements definition) properties
      Step.build definition.name structureId properties : Step Value) inner).Stuck) :
    (source.evalKind recur id context).Stuck := by
  obtain ⟨stop, hstop, hover⟩ := Outcome.stuck_iff.mp hstuck
  exact Outcome.stuck_iff.mpr ⟨_, h.evalKind_of_stopped hstop, hover.outOf _ _⟩

/-- A node is stuck where a node that it calls is. -/
theorem Calls.stuck (h : source.Calls recur id context entered node later)
    (hstuck : (recur node later).Stuck) : (source.evalKind recur id context).Stuck := by
  obtain ⟨stop, hstop, hover⟩ := Outcome.stuck_iff.mp hstuck
  exact Outcome.stuck_iff.mpr ⟨_, h.evalKind_of_stopped hstop, hover.outOf _ _⟩

end

/-- The root is stuck where a node is that its evaluation comes to. -/
theorem Reached.stuck {start context : Context} {steps : Nat} {live : List NodeId} {id : NodeId}
    (h : source.Reached start steps live id context)
    (hstuck : (source.eval steps id context).Stuck) :
    (source.eval (source.stepBound start) source.root start).Stuck := by
  induction h with
  | root => exact hstuck
  | call _ hcall ih => exact ih (Step.stuck_located (hcall.stuck hstuck))

/-! ### Inwards -/

section

variable {id node : NodeId} {context later : Context} {entered : Option NodeId}

/-- The evaluation of the node comes to a block or a construction where no frame can be entered. -/
inductive Refused (source : Source) (recur : NodeId → Step Value) (id : NodeId)
    (context : Context) : Prop
  | block {statements} : source.kind id = .block statements → ¬ context.depth < context.maxDepth →
      Refused source recur id context
  | construction {callee arguments structureId name between values later definition} :
      source.kind id = .evaluate callee arguments →
      recur callee context = .value (.structureRef structureId name) between →
      evalEach recur (source.list arguments) between = .value values later →
      source.structure? structureId = some definition →
      values.length ≤ (source.list definition.inputs).length →
      ¬ later.depth < later.maxDepth → Refused source recur id context

/-- An overflow is raised only where a frame is refused, and carries the limit that is reached. -/
theorem Raises.refused {limit : Nat} {moment : Context}
    (h : source.Raises recur id context entered (.stackOverflow limit) moment) :
    source.Refused recur id context ∧ limit = moment.maxDepth ∧
      ¬ moment.depth < moment.maxDepth := by
  cases h with
  | blockRefused hkind hfull => exact ⟨.block hkind hfull, rfl, hfull⟩
  | constructionRefused happlies hdefined hlength hfull =>
      obtain ⟨callee, arguments, between, hkind, hcallee, harguments⟩ := happlies
      exact ⟨.construction hkind hcallee harguments hdefined hlength hfull, rfl, hfull⟩
  | property _ _ hproperty => exact (ofValues_of_propertyOf hproperty).elim
  | binary _ _ _ hoperator => exact (ofValues_of_binary hoperator).elim
  | unary _ _ hoperator => exact (ofValues_of_unary hoperator).elim

/-- A node exceeds the limit where a frame is refused to it, or where a node that it calls does. -/
theorem refused_or_exists_call (h : (source.evalKind recur id context).Overflows) :
    source.Refused recur id context ∨ ∃ entered node later,
      source.Calls recur id context entered node later ∧ (recur node later).Overflows := by
  cases houtcome : source.evalKind recur id context with
  | value | unfinished =>
      rw [houtcome] at h
      exact h.elim
  | error error last =>
      rw [houtcome] at h
      obtain ⟨limit, hlimit⟩ : error.Overflows := h
      rcases Fails.of_evalKind houtcome with
        ⟨entered, fault, moment, hraises⟩ | ⟨entered, node, between, inner, later, hcalls, hnode⟩
      · have hfault : error.fault = fault :=
          fault_of_stopped (hraises.evalKind_eq.symm.trans houtcome)
        rw [← hfault, hlimit] at hraises
        exact .inl hraises.refused.1
      · have hfault := fault_of_stopped ((hcalls.evalKind_of_error hnode).symm.trans houtcome)
        refine .inr ⟨entered, node, between, hcalls, ?_⟩
        rw [hnode]
        exact ⟨limit, hfault ▸ hlimit⟩

end

end Source
end Bindery
