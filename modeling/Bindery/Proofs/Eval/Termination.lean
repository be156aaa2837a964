import Bindery.Proofs.Eval.Calls
import Bindery.Proofs.Scope.Visible

/-!
Evaluation ends. Along every call either a further frame is entered, of which there can be only so
many, or the node called has a smaller number: it is a child, or a bind that is visible from the
node. So a bound on nested evaluations that exceeds this measure is never reached, and any larger
one gives the same result.
-/

namespace Bindery

namespace Context

variable {context inner : Context} {frame : CallFrame}

theorem enter_eq_ok : context.enter frame = .ok inner ↔
    context.depth < context.maxDepth ∧
      inner = { context with
        callStack := { context.callStack with frames := frame :: context.callStack.frames }
        frames := [] :: context.frames } := by
  simp only [enter, CallStack.push, depth, maxDepth]
  split
  · rename_i hlt
    simp only [Except.map, Except.ok.injEq, hlt, true_and]
    exact eq_comm
  · rename_i hle
    simp only [Except.map, hle, false_and, reduceCtorEq]

theorem enter_eq_error {error : EvalError} : context.enter frame = .error error ↔
    ¬ context.depth < context.maxDepth ∧ error = { fault := .stackOverflow context.maxDepth } := by
  simp only [enter, CallStack.push, depth, maxDepth]
  split
  · rename_i hlt
    simp only [Except.map, hlt, not_true, false_and, reduceCtorEq]
  · rename_i hle
    simp only [Except.map, Except.error.injEq, hle, not_false_eq_true, true_and]
    exact eq_comm

end Context

theorem CallStack.fault_attach (stack : CallStack) (error : EvalError) (interner : Interner) :
    (stack.attach error interner).fault = error.fault := by
  simp only [attach]
  split <;> rfl

theorem CallStack.span_attach (stack : CallStack) (error : EvalError) (interner : Interner) :
    (stack.attach error interner).span = error.span := by
  simp only [attach]
  split <;> rfl

/-- The context that a step leaves behind, if it comes to an end. -/
def Outcome.context? {α : Type} : Outcome α → Option Context
  | .value _ context | .error _ context => some context
  | .unfinished => none

namespace Step

/-- The second step comes to the same as the first one where that comes to an end. -/
def Extends (α : Type) (context : Context) (step step' : Step α) : Prop :=
  step context = .unfinished ∨ step' context = step context

/-- The frames being run are the same when a step has ended. -/
def KeepsCallStack (α : Type) (context : Context) (step _step' : Step α) : Prop :=
  ∀ later, (step context).context? = some later → later.callStack = context.callStack

def Ends (α : Type) (context : Context) (step _step' : Step α) : Prop :=
  step context ≠ .unfinished

theorem bind_apply {α β : Type} (first : Step α) (next : α → Step β) (context : Context) :
    (first >>= next) context =
      match first context with
      | .value result later => next result later
      | .error error later => .error error later
      | .unfinished => .unfinished := rfl

theorem congruence_extends : FullCongruence Extends where
  pure _ _ := .inr rfl
  fail _ _ := .inr rfl
  record _ _ _ := .inr rfl
  lookup? _ _ := .inr rfl
  keep _ _ _ := .inr rfl
  build _ _ _ _ := .inr rfl
  bind {α β context first first' next next'} hfirst hnext := by
    simp only [Extends, bind_apply]
    rcases hfirst with hfirst | hfirst
    · exact .inl (by rw [hfirst])
    · rw [hfirst]
      cases h : first context with
      | value result later => exact hnext result later h
      | error error later => exact .inr rfl
      | unfinished => exact .inl rfl
  inFrame {α context frame} interner {step step'} hstep := by
    simp only [Extends, Step.inFrame]
    cases henter : context.enter frame with
    | error error => exact .inr rfl
    | ok inner =>
        simp only
        rcases hstep inner henter with hstep | hstep
        · exact .inl (by rw [hstep])
        · exact .inr (by rw [hstep])

/-- Steps that come to the same are put together to steps that come to the same. -/
theorem congruence_eq :
    FullCongruence fun _ context step step' => step context = step' context where
  pure _ _ := rfl
  fail _ _ := rfl
  record _ _ _ := rfl
  lookup? _ _ := rfl
  keep _ _ _ := rfl
  build _ _ _ _ := rfl
  bind {α β context first first' next next'} hfirst hnext := by
    simp only [bind_apply, ← hfirst]
    cases h : first context with
    | value result later => exact hnext result later h
    | error | unfinished => rfl
  inFrame {α context frame} interner {step step'} hstep := by
    simp only [Step.inFrame]
    cases henter : context.enter frame with
    | error failure => rfl
    | ok inner => simp only [hstep inner henter]

theorem congruence_keepsCallStack : FullCongruence KeepsCallStack where
  pure _ _ := by rintro later ⟨⟩; rfl
  fail _ _ := by rintro later ⟨⟩; rfl
  record context bind value := by
    rintro later ⟨⟩
    simp only [Context.record]
    split <;> rfl
  lookup? _ _ := by rintro later ⟨⟩; rfl
  keep _ _ _ := by rintro later ⟨⟩; rfl
  build _ _ _ _ := by rintro later ⟨⟩; rfl
  bind {α β context first first' next next'} hfirst hnext := by
    intro later hlater
    rw [bind_apply] at hlater
    cases h : first context with
    | value result between =>
        rw [h] at hlater
        rw [hnext result between h later hlater]
        exact hfirst between (by rw [h]; rfl)
    | error error between =>
        rw [h] at hlater
        cases hlater
        exact hfirst later (by rw [h]; rfl)
    | unfinished =>
        rw [h] at hlater
        cases hlater
  inFrame {α context frame} interner {step step'} hstep := by
    intro later hlater
    simp only [Step.inFrame] at hlater
    cases henter : context.enter frame with
    | error error =>
        rw [henter] at hlater
        cases hlater
        rfl
    | ok inner =>
        rw [henter] at hlater
        have hinner := hstep inner henter
        have leave_eq (between : Context) (hbetween : between.callStack = inner.callStack) :
            between.leave.callStack = context.callStack := by
          rw [← Context.leave_enter henter]
          simp only [Context.leave, hbetween]
        cases h : step inner with
        | value result between =>
            simp only [h] at hlater
            cases hlater
            exact leave_eq between (hinner between (by rw [h]; rfl))
        | error error between =>
            simp only [h] at hlater
            cases hlater
            exact leave_eq between (hinner between (by rw [h]; rfl))
        | unfinished =>
            simp only [h] at hlater
            cases hlater

theorem value_ne_unfinished {α : Type} (result : α) (context : Context) :
    Outcome.value result context ≠ .unfinished := by
  intro h
  cases h

theorem error_ne_unfinished {α : Type} (error : EvalError) (context : Context) :
    (Outcome.error error context : Outcome α) ≠ .unfinished := by
  intro h
  cases h

theorem congruence_ends : FullCongruence Ends where
  pure _ _ := value_ne_unfinished _ _
  fail _ _ := error_ne_unfinished _ _
  record _ _ _ := value_ne_unfinished _ _
  lookup? _ _ := value_ne_unfinished _ _
  keep _ _ _ := value_ne_unfinished _ _
  build _ _ _ _ := value_ne_unfinished _ _
  bind {α β context first first' next next'} hfirst hnext := by
    simp only [Ends, bind_apply]
    cases h : first context with
    | value result later => exact hnext result later h
    | error error later => exact error_ne_unfinished error later
    | unfinished => exact absurd h hfirst
  inFrame {α context frame} interner {step step'} hstep := by
    simp only [Ends, Step.inFrame]
    cases henter : context.enter frame with
    | error error => exact error_ne_unfinished _ _
    | ok inner =>
        have hinner := hstep inner henter
        cases h : step inner with
        | value result later =>
            simp only [h]
            exact value_ne_unfinished _ _
        | error error later =>
            simp only [h]
            exact error_ne_unfinished _ _
        | unfinished => exact absurd h hinner

theorem located_eq_unfinished {α : Type} {interner : Interner} {span : Span} {step : Step α}
    {context : Context} :
    located interner span step context = .unfinished ↔ step context = .unfinished := by
  simp only [located]
  cases h : step context with
  | value result later => exact Iff.rfl
  | error error later =>
      exact iff_of_false (error_ne_unfinished _ _) (error_ne_unfinished error later)
  | unfinished => exact Iff.rfl

theorem context?_located {α : Type} {interner : Interner} {span : Span} {step : Step α}
    {context : Context} :
    (located interner span step context).context? = (step context).context? := by
  simp only [located]
  cases step context with
  | value result later | error error later | unfinished => rfl

theorem Extends.located {α : Type} {context : Context} {step step' : Step α}
    (h : Extends α context step step') (interner : Interner) (span : Span) :
    Extends α context (Step.located interner span step) (Step.located interner span step') := by
  rcases h with h | h
  · exact .inl (located_eq_unfinished.mpr h)
  · exact .inr (by simp only [Step.located, h])

theorem Extends.of_value {α : Type} {context later : Context} {step step' : Step α} {result : α}
    (h : Extends α context step step') (hvalue : step context = .value result later) :
    step' context = .value result later := by
  rcases h with h | h
  · rw [hvalue] at h
    cases h
  · rw [h, hvalue]

end Step

namespace Source

variable {source : Source}

theorem extends_eval_succ (steps : Nat) (id : NodeId) (context : Context) :
    Step.Extends Value context (source.eval steps id) (source.eval (steps + 1) id) := by
  induction steps generalizing id context with
  | zero => exact .inl rfl
  | succ steps ih =>
      have hkind : Step.Extends Value context (source.evalKind (source.eval steps) id)
          (source.evalKind (source.eval (steps + 1)) id) :=
        evalKind_congr_of_calls Step.congruence_extends fun _ node later _ => ih node later
      exact hkind.located _ _

theorem eval_of_le {steps steps' : Nat} (hle : steps ≤ steps') {id : NodeId} {context : Context}
    (h : source.eval steps id context ≠ .unfinished) :
    source.eval steps' id context = source.eval steps id context := by
  induction hle with
  | refl => rfl
  | @step steps' _ ih =>
      rcases source.extends_eval_succ steps' id context with hunfinished | heq
      · rw [ih] at hunfinished
        exact absurd hunfinished h
      · exact heq.trans ih

/-- The frames being run are the same after an evaluation, whatever it comes to. -/
theorem eval_keepsCallStack (steps : Nat) (id : NodeId) (context : Context) :
    Step.KeepsCallStack Value context (source.eval steps id) (source.eval steps id) := by
  induction steps generalizing id context with
  | zero => intro later hlater; cases hlater
  | succ steps ih =>
      intro later hlater
      rw [eval, Step.context?_located] at hlater
      exact evalKind_congr_of_calls Step.congruence_keepsCallStack
        (fun _ node later _ => ih node later) later hlater

/-- What a call leads to: a further frame, or a node with a smaller number in the same frames. -/
def Descends (source : Source) (id : NodeId) (context : Context) (entered : Option NodeId)
    (node : NodeId) (later : Context) : Prop :=
  match entered with
  | none => later.callStack = context.callStack ∧ node.index < id.index ∧
      node.index < source.arena.size
  | some _ => later.maxDepth = context.maxDepth ∧ later.depth = context.depth + 1 ∧
      later.depth ≤ context.maxDepth

/-- Nested evaluations leave the frames being run as they are. -/
def KeepsCallStacks (recur : NodeId → Step Value) : Prop :=
  ∀ node context, Step.KeepsCallStack Value context (recur node) (recur node)

section

variable {recur : NodeId → Step Value} (hrecur : KeepsCallStacks recur) {context later : Context}
include hrecur

theorem callStack_of_recur {node : NodeId} {value : Value}
    (h : recur node context = .value value later) : later.callStack = context.callStack :=
  hrecur node context later (by rw [h]; rfl)

theorem callStack_of_evalSequence {last value : Value} {ids : List NodeId}
    (h : evalSequence recur last ids context = .value value later) :
    later.callStack = context.callStack :=
  evalSequence_congr Step.congruence_keepsCallStack.toCongruence
    (fun _ node _ _ later _ _ => hrecur node later) later (by rw [h]; rfl)

theorem callStack_of_evalEach {ids : List NodeId} {values : List Value}
    (h : evalEach recur ids context = .value values later) :
    later.callStack = context.callStack :=
  evalEach_congr Step.congruence_keepsCallStack.toCongruence
    (fun _ node _ _ later _ _ => hrecur node later) later (by rw [h]; rfl)

theorem callStack_of_supplyInputs {structureName : Name} {inputs : List NodeId}
    {arguments : List Value} {properties properties' : Properties}
    (h : source.supplyInputs recur structureName inputs arguments properties context =
      .value properties' later) :
    later.callStack = context.callStack :=
  supplyInputs_congr Step.congruence_keepsCallStack.toCongruence
    (fun _ _ _ _ later _ node _ _ _ _ _ => hrecur node later) later (by rw [h]; rfl)

theorem callStack_of_runBody {statements : List NodeId} {properties properties' : Properties}
    (h : source.runBody recur statements properties context = .value properties' later) :
    later.callStack = context.callStack :=
  runBody_congr Step.congruence_keepsCallStack.toCongruence
    (fun _ node _ _ later _ _ => hrecur node later) later (by rw [h]; rfl)

end

theorem descends_of_enter {context inner later : Context} {frame : CallFrame} {id node : NodeId}
    {entered : NodeId} (henter : context.enter frame = .ok inner)
    (hlater : later.callStack = inner.callStack) :
    source.Descends id context (some entered) node later := by
  obtain ⟨hlt, rfl⟩ := Context.enter_eq_ok.mp henter
  have hdepth : later.depth = context.depth + 1 := by
    rw [Context.depth, hlater]
    rfl
  refine ⟨by rw [Context.maxDepth, hlater]; rfl, hdepth, ?_⟩
  rw [hdepth]
  exact hlt

theorem descends_of_placed (hsource : source.WellFormed) {context later : Context}
    {id node : NodeId} {place : Place}
    (hplaced : (place, node) ∈ source.arena.placements (source.kind id))
    (hlater : later.callStack = context.callStack) : source.Descends id context none node later :=
  ⟨hlater, hsource.index_lt_of_placed hplaced, hsource.lt_size_of_placed hplaced⟩

/-- A frame for a construction is entered on top of the frames in which the evaluation started. -/
theorem Constructs.descends {recur : NodeId → Step Value} {id structureId : NodeId}
    {context inner : Context} {definition : StructureNode} {values : List Value}
    (h : source.Constructs recur id context structureId definition values inner)
    (hrecur : KeepsCallStacks recur) {later : Context} {node : NodeId}
    (hlater : later.callStack = inner.callStack) :
    source.Descends id context (some structureId) node later := by
  obtain ⟨callee, arguments, name, between, outer, -, hcallee, harguments, henter⟩ := h.called
  have houter : outer.callStack = context.callStack :=
    (callStack_of_evalEach hrecur harguments).trans (callStack_of_recur hrecur hcallee)
  have hdescends : source.Descends id outer (some structureId) node later :=
    descends_of_enter henter hlater
  simp only [Descends, Context.maxDepth, Context.depth, houter] at hdescends ⊢
  exact hdescends

/-- Along every call a frame is entered or the number of the node goes down. -/
theorem Calls.descends (hsource : source.WellFormed) {recur : NodeId → Step Value}
    (hrecur : KeepsCallStacks recur) {id node : NodeId} {context later : Context}
    {entered : Option NodeId} (h : source.Calls recur id context entered node later) :
    source.Descends id context entered node later := by
  cases h with
  | statement hkind hlist henter hbefore =>
      exact descends_of_enter henter (callStack_of_evalSequence hrecur hbefore)
  | value hkind hvalue =>
      have hplaced : (Place.expression, node) ∈ source.arena.placements (source.kind id) := by
        simp [hkind, Arena.placements, hvalue]
      exact descends_of_placed hsource hplaced rfl
  | demanded hkind hdefinition hlookup =>
      have hvisible := (mem_visible_of_definitionOf? hdefinition).1
      exact ⟨rfl, hsource.index_lt_of_visible hvisible, hsource.lt_size_of_visible hvisible⟩
  | subject hkind | callee hkind | left hkind | operand hkind | condition hkind =>
      have hplaced : (Place.expression, node) ∈ source.arena.placements (source.kind id) := by
        simp [hkind, Arena.placements]
      exact descends_of_placed hsource hplaced rfl
  | @argument _ arguments _ _ _ _ _ _ _ hkind hlist hcallee hbefore =>
      have hplaced : (Place.expression, node) ∈ source.arena.placements (source.kind id) :=
        WellFormed.placed_argument hkind (by rw [hlist]; simp)
      exact descends_of_placed hsource hplaced
        ((callStack_of_evalEach hrecur hbefore).trans (callStack_of_recur hrecur hcallee))
  | default hconstructs hlist hbefore hlength hbind hvalue =>
      exact hconstructs.descends hrecur (callStack_of_supplyInputs hrecur hbefore)
  | bodyStatement hconstructs hinputs hlist hbefore =>
      exact hconstructs.descends hrecur ((callStack_of_runBody hrecur hbefore).trans
        (callStack_of_supplyInputs hrecur hinputs))
  | right hkind hleft =>
      have hplaced : (Place.expression, node) ∈ source.arena.placements (source.kind id) := by
        simp [hkind, Arena.placements]
      exact descends_of_placed hsource hplaced (callStack_of_recur hrecur hleft)
  | @branch condition yes no choice _ hkind hcondition =>
      have hplaced : (Place.expression, if choice then yes else no) ∈
          source.arena.placements (source.kind id) := by
        cases choice <;> simp [hkind, Arena.placements]
      exact descends_of_placed hsource hplaced (callStack_of_recur hrecur hcondition)

/-- A bound on how deeply evaluations nest from here on. -/
def nesting (source : Source) (id : NodeId) (context : Context) : Nat :=
  (context.maxDepth - context.depth) * (source.arena.size + 1) + min id.index source.arena.size

theorem nesting_lt (hsource : source.WellFormed) {recur : NodeId → Step Value}
    (hrecur : KeepsCallStacks recur) {id node : NodeId} {context later : Context}
    {entered : Option NodeId} (h : source.Calls recur id context entered node later) :
    source.nesting node later < source.nesting id context := by
  have hdescends := h.descends hsource hrecur
  cases entered with
  | none =>
      obtain ⟨hcallStack, hlt, hsize⟩ := hdescends
      -- The frames are the same and the number falls.
      simp only [nesting, Context.maxDepth, Context.depth, hcallStack]
      omega
  | some structureId =>
      obtain ⟨hmax, hdepth, hle⟩ := hdescends
      -- One frame less can be entered, which outweighs whatever number comes next.
      have hbudget : context.maxDepth - context.depth = (later.maxDepth - later.depth) + 1 := by
        omega
      simp only [nesting, hbudget, Nat.add_mul, Nat.one_mul]
      omega

/-- An evaluation that may nest more deeply than the bound comes to an end. -/
theorem eval_ne_unfinished (hsource : source.WellFormed) {steps : Nat} {id : NodeId}
    {context : Context} (hsteps : source.nesting id context < steps) :
    source.eval steps id context ≠ .unfinished := by
  induction steps generalizing id context with
  | zero => omega
  | succ steps ih =>
      intro hunfinished
      have hends : Step.Ends Value context (source.evalKind (source.eval steps) id)
          (source.evalKind (source.eval steps) id) :=
        evalKind_congr_of_calls Step.congruence_ends fun entered node later hcall => by
          have hlt := nesting_lt hsource (source.eval_keepsCallStack steps) hcall
          exact ih (by omega)
      exact hends (Step.located_eq_unfinished.mp hunfinished)

theorem nesting_lt_stepBound (id : NodeId) (context : Context) :
    source.nesting id context < source.stepBound context := by
  simp only [nesting, stepBound, Nat.add_mul, Nat.one_mul]
  omega

end Source
end Bindery
