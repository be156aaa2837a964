import Bindery.Proofs.Eval.Balance
import Bindery.Proofs.Eval.Overflow
import Bindery.Proofs.Eval.Shape

/-!
What an error tells of its origin. It is raised at a node whose evaluation is in progress, while
certain frames are being run: its place is the span of this node, and its backtrace shows these
frames, the innermost one first. Every node that it passes on the way out, and every frame, fills in
what it lacks, which is nothing any more once the innermost node has done so.
-/

namespace Bindery

theorem Value.eq_error_of_asError? {value : Value} {error : EvalError}
    (h : value.asError? = some error) : value = .error error := by
  cases value with
  | error => exact congrArg Value.error (Option.some.inj h)
  | none | text | number | boolean | structureRef | inst => cases h

namespace CallStack

variable {stack : CallStack} {interner : Interner}

/-- What a backtrace shows of a call stack; of an empty one there is no backtrace. -/
def snapshot (stack : CallStack) (interner : Interner) : Option Backtrace :=
  if stack.isEmpty then none else some (stack.capture interner)

theorem attach_of_none {error : EvalError} (h : error.backtrace = none) :
    stack.attach error interner = { error with backtrace := stack.snapshot interner } := by
  obtain ⟨fault, span, backtrace⟩ := error
  cases h
  simp only [attach, snapshot, Option.isSome_none, Bool.or_false]
  split <;> rfl

theorem snapshot_of_ne_nil (h : stack.frames ≠ []) :
    stack.snapshot interner = some (stack.capture interner) := by
  simp only [snapshot, isEmpty, List.isEmpty_iff, if_neg h]

/-- Frames have been entered on top of those of a stack, as far as its limit allows. -/
structure GrowsTo (stack further : CallStack) : Prop where
  suffix : stack.frames <:+ further.frames
  maxDepth_eq : further.maxDepth = stack.maxDepth
  depth_le : stack.depth ≤ stack.maxDepth → further.depth ≤ further.maxDepth

namespace GrowsTo

variable {further last : CallStack}

theorem refl : stack.GrowsTo stack := ⟨List.suffix_rfl, rfl, id⟩

theorem trans (h : stack.GrowsTo further) (h' : further.GrowsTo last) : stack.GrowsTo last :=
  ⟨h.suffix.trans h'.suffix, h'.maxDepth_eq.trans h.maxDepth_eq,
    fun hle => h'.depth_le (h.depth_le hle)⟩

end GrowsTo
end CallStack

namespace EvalError

variable {error : EvalError} {stack : CallStack} {interner : Interner} {span : Span}

/-- The error has a place, and it has a backtrace unless no frame is being run. -/
structure Settled (error : EvalError) (stack : CallStack) : Prop where
  span_isSome : error.span.isSome = true
  backtrace_isSome : stack.frames ≠ [] → error.backtrace.isSome = true

theorem attach_of_isSome (h : stack.frames ≠ [] → error.backtrace.isSome = true) :
    stack.attach error interner = error := by
  by_cases hframes : stack.frames = []
  · simp [CallStack.attach, CallStack.isEmpty, hframes]
  · simp [CallStack.attach, h hframes]

namespace Settled

theorem orSpan_eq (h : error.Settled stack) : error.orSpan span = error := by
  obtain ⟨fault, place, backtrace⟩ := error
  cases place with
  | none => cases h.span_isSome
  | some place => rfl

theorem attach_eq (h : error.Settled stack) : stack.attach error interner = error :=
  attach_of_isSome h.backtrace_isSome

end Settled

/-- Where an error passes a node, it gets whatever it lacks. -/
theorem settled_attach : (stack.attach (error.orSpan span) interner).Settled stack := by
  refine ⟨?_, fun hframes => ?_⟩
  · rw [CallStack.span_attach]
    cases hplace : error.span <;> simp [orSpan, hplace]
  · simp only [CallStack.attach]
    split
    · rename_i hcondition
      simpa [CallStack.isEmpty, hframes] using hcondition
    · rfl

end EvalError

namespace Source

variable {source : Source} {recur : NodeId → Step Value} {id node : NodeId}
  {context later : Context} {entered : Option NodeId} {fault : Fault} {steps : Nat}

/-! ### Frames -/

/-- The frame in which `home` is run for `id`: a construction, if `home` is a structure, and
otherwise the block `id` itself. -/
def frameFor (source : Source) (id home : NodeId) : CallFrame :=
  match source.structure? home with
  | some definition => ⟨.construct home definition.name, source.span id⟩
  | none => ⟨.block, source.span id⟩

/-- The frames being run are those of `context` and the one that has been entered since. -/
structure Pushes (source : Source) (id : NodeId) (context : Context) (entered : Option NodeId)
    (later : Context) : Prop where
  callStack : later.callStack =
    { context.callStack with
      frames := (entered.map (source.frameFor id)).toList ++ context.callStack.frames }
  room : entered ≠ none → context.depth < context.maxDepth

namespace Pushes

theorem growsTo (h : source.Pushes id context entered later) :
    context.callStack.GrowsTo later.callStack := by
  obtain ⟨hcallStack, hroom⟩ := h
  rw [hcallStack]
  refine ⟨List.suffix_append _ _, rfl, fun hle => ?_⟩
  cases entered with
  | none => exact hle
  | some home => exact hroom nofun

theorem frames_ne_nil {home : NodeId} (h : source.Pushes id context (some home) later) :
    later.callStack.frames ≠ [] := by
  rw [h.callStack]
  exact List.cons_ne_nil _ _

theorem of_eq (h : later.callStack = context.callStack) :
    source.Pushes id context none later := ⟨h, fun hne => absurd rfl hne⟩

theorem of_enter {home : NodeId} {outer inner : Context}
    (houter : outer.callStack = context.callStack)
    (henter : outer.enter (source.frameFor id home) = .ok inner)
    (hlater : later.callStack = inner.callStack) :
    source.Pushes id context (some home) later := by
  obtain ⟨hlt, rfl⟩ := Context.enter_eq_ok.mp henter
  refine ⟨?_, fun _ => ?_⟩
  · rw [hlater, houter]
    rfl
  · rwa [Context.depth, Context.maxDepth, houter] at hlt

end Pushes

section

variable (hrecur : KeepsCallStacks recur)
include hrecur

theorem callStack_of_applies {called : Value} {values : List Value}
    (h : source.Applies recur id context called values later) :
    later.callStack = context.callStack := by
  obtain ⟨callee, arguments, between, -, hcallee, harguments⟩ := h
  exact (callStack_of_evalEach hrecur harguments).trans (callStack_of_recur hrecur hcallee)

theorem callStack_of_inputValue {structureName : Name} {bind : BindNode} {arguments : List Value}
    {value : Value}
    (h : source.inputValue recur structureName bind arguments context = .value value later) :
    later.callStack = context.callStack := by
  cases arguments with
  | cons argument arguments =>
      cases h
      rfl
  | nil =>
      cases hnode : bind.value with
      | none =>
          simp only [inputValue, hnode] at h
          cases h
      | some node =>
          simp only [inputValue, hnode] at h
          exact callStack_of_recur hrecur h

theorem Constructs.pushes {structureId : NodeId} {definition : StructureNode} {values : List Value}
    {inner : Context}
    (h : source.Constructs recur id context structureId definition values inner)
    (hlater : later.callStack = inner.callStack) :
    source.Pushes id context (some structureId) later := by
  obtain ⟨callee, arguments, name, between, outer, hkind, hcallee, harguments, henter⟩ := h.called
  have hframe : source.frameFor id structureId =
      ⟨.construct structureId definition.name, source.span id⟩ := by
    simp only [frameFor, h.defined]
  have houter := callStack_of_applies hrecur
    ⟨callee, arguments, between, hkind, hcallee, harguments⟩
  exact .of_enter houter (hframe ▸ henter) hlater

/-- A call happens in the frames of the node that calls, or in one more. -/
theorem Calls.pushes (hsource : source.WellFormed)
    (h : source.Calls recur id context entered node later) :
    source.Pushes id context entered later := by
  cases entered with
  | none => exact .of_eq (h.descends hsource hrecur).1
  | some home =>
      cases h with
      | statement hkind _ henter hbefore =>
          have hframe : source.frameFor id id = ⟨.block, source.span id⟩ := by
            simp only [frameFor, structure?, hkind]
          exact .of_enter rfl (hframe ▸ henter) (callStack_of_evalSequence hrecur hbefore)
      | default hconstructs _ hbefore =>
          exact hconstructs.pushes hrecur (callStack_of_supplyInputs hrecur hbefore)
      | bodyStatement hconstructs hinputs _ hbefore =>
          exact hconstructs.pushes hrecur ((callStack_of_runBody hrecur hbefore).trans
            (callStack_of_supplyInputs hrecur hinputs))

/-- An error is raised in the frames of the node that raises it, or in one more. -/
theorem Raises.pushes {moment : Context}
    (h : source.Raises recur id context entered fault moment) :
    source.Pushes id context entered moment := by
  cases h with
  | blockRefused | unvalued | undefined => exact .of_eq rfl
  | unaccepted _ _ hnode => exact .of_eq (callStack_of_recur hrecur hnode)
  | property _ hnode | unary _ hnode | condition _ hnode =>
      exact .of_eq (callStack_of_recur hrecur hnode)
  | notStructure happlies | notDefinition happlies | tooMany happlies
  | constructionRefused happlies => exact .of_eq (callStack_of_applies hrecur happlies)
  | unsupplied hconstructs _ hbefore =>
      exact hconstructs.pushes hrecur (callStack_of_supplyInputs hrecur hbefore)
  | inputUnaccepted hconstructs _ hbefore _ hvalue =>
      exact hconstructs.pushes hrecur ((callStack_of_inputValue hrecur hvalue).trans
        (callStack_of_supplyInputs hrecur hbefore))
  | binary _ hleft hright =>
      exact .of_eq ((callStack_of_recur hrecur hright).trans (callStack_of_recur hrecur hleft))

end

/-! ### On the way out -/

/-- The error that is raised with a fault at a node while the frames of a stack are being run. -/
def errorAt (source : Source) (node : NodeId) (fault : Fault) (stack : CallStack) : EvalError where
  fault
  span := source.span node
  backtrace := stack.snapshot source.interner

/-- An error that leaves a node lacks nothing. -/
theorem settled_of_eval {error : EvalError}
    (h : source.eval steps id context = .error error later) :
    error.Settled context.callStack := by
  have hstack := source.eval_keepsCallStack steps id context later (by rw [h]; rfl)
  cases steps with
  | zero => cases h
  | succ steps =>
      obtain ⟨failure, -, rfl⟩ := Step.exists_of_located_eq_error h
      rw [← hstack]
      exact EvalError.settled_attach

/-- A node leaves an error as it is that comes out of a call, and so does the frame that has been
entered for the call. -/
theorem Calls.eval_eq_error (hsource : source.WellFormed) {error : EvalError} {last : Context}
    (h : source.Calls (source.eval steps) id context entered node later)
    (herror : source.eval steps node later = .error error last) :
    ∃ last', source.eval (steps + 1) id context = .error error last' := by
  have hkind := h.evalKind_of_error herror
  have hpushes := h.pushes (source.eval_keepsCallStack steps) hsource
  have hstack := source.eval_keepsCallStack steps node later last (by rw [herror]; rfl)
  have hsettled : error.Settled last.callStack := hstack ▸ settled_of_eval herror
  cases entered with
  | none =>
      refine ⟨last, ?_⟩
      simp only [eval, Step.located, hkind, Outcome.stopped, Stop.outOf]
      rw [hsettled.orSpan_eq, hsettled.attach_eq]
  | some home =>
      have hisSome := hsettled.backtrace_isSome (hstack ▸ hpushes.frames_ne_nil)
      refine ⟨last.leave, ?_⟩
      simp only [eval, Step.located, hkind, Outcome.stopped, Stop.outOf, Option.map_some]
      rw [hsettled.attach_eq, hsettled.orSpan_eq, EvalError.attach_of_isSome fun _ => hisSome]

/-- An error that is raised leaves its node with the span of the node and the frames being run when
it was raised. -/
theorem Raises.eval_eq {moment : Context}
    (h : source.Raises (source.eval steps) id context entered fault moment) :
    ∃ later, source.eval (steps + 1) id context =
      .error (source.errorAt id fault moment.callStack) later := by
  have hkind := h.evalKind_eq
  have hpushes := h.pushes (source.eval_keepsCallStack steps)
  cases entered with
  | none =>
      refine ⟨moment, ?_⟩
      simp only [eval, Step.located, hkind, Outcome.stopped, Stop.outOf]
      rw [CallStack.attach_of_none rfl]
      rfl
  | some home =>
      have hattach : moment.callStack.attach { fault } source.interner =
          { fault, backtrace := moment.callStack.snapshot source.interner } :=
        CallStack.attach_of_none rfl
      have hsnapshot : moment.callStack.snapshot source.interner = some _ :=
        CallStack.snapshot_of_ne_nil hpushes.frames_ne_nil
      refine ⟨moment.leave, ?_⟩
      simp only [eval, Step.located, hkind, Outcome.stopped, Stop.outOf, Option.map_some, hattach]
      rw [EvalError.attach_of_isSome fun _ => congrArg Option.isSome hsnapshot]
      rfl

/-- `source.RaisesAt top start node fault stack`: while `top` is evaluated in `start`, an error is
raised with `fault`. The evaluation of `node` is in progress then, with no other nested in it, and
the frames of `stack` are being run. -/
def RaisesAt (source : Source) (top : NodeId) (start : Context) (node : NodeId) (fault : Fault)
    (stack : CallStack) : Prop :=
  ∃ steps context entered moment, source.Asks top start (steps + 1) node context ∧
    source.Raises (source.eval steps) node context entered fault moment ∧
    stack = moment.callStack

section

variable {top : NodeId} {start : Context} {error : EvalError}

/-- The error of a nested evaluation is the error of the whole. -/
theorem Asks.eval_eq_error (hsource : source.WellFormed)
    (h : source.Asks top start steps id context)
    (herror : source.eval steps id context = .error error later) :
    ∃ last, source.eval (source.stepBound start) top start = .error error last := by
  induction h generalizing later with
  | top => exact ⟨later, herror⟩
  | call _ hcall ih =>
      obtain ⟨last, hlast⟩ := hcall.eval_eq_error hsource herror
      exact ih hlast

/-- An error is raised somewhere: the calls that fail lead to the node that raises it. -/
theorem Asks.exists_raisesAt (hsource : source.WellFormed)
    (h : source.Asks top start steps id context)
    (herror : source.eval steps id context = .error error later) :
    ∃ node fault stack, source.RaisesAt top start node fault stack ∧
      error = source.errorAt node fault stack := by
  induction steps generalizing id context later with
  | zero => cases herror
  | succ steps ih =>
      obtain ⟨failure, hkind, -⟩ := Step.exists_of_located_eq_error herror
      rcases Fails.of_evalKind hkind with
        ⟨entered, fault, moment, hraises⟩ | ⟨entered, node, between, inner, last, hcalls, hnode⟩
      · obtain ⟨later', hraised⟩ := hraises.eval_eq
        cases herror.symm.trans hraised
        exact ⟨id, fault, _, ⟨steps, context, entered, moment, h, hraises, rfl⟩, rfl⟩
      · obtain ⟨last', houter⟩ := hcalls.eval_eq_error hsource hnode
        cases herror.symm.trans houter
        exact ih (h.call hcalls) hnode

/-- The errors of an evaluation are those that are raised while it is in progress. -/
theorem eval_eq_error_iff (hsource : source.WellFormed) :
    (∃ later, source.eval (source.stepBound start) top start = .error error later) ↔
      ∃ node fault stack, source.RaisesAt top start node fault stack ∧
        error = source.errorAt node fault stack := by
  constructor
  · rintro ⟨later, herror⟩
    exact Asks.top.exists_raisesAt hsource herror
  · rintro ⟨node, fault, _, ⟨steps, context, entered, moment, hasks, hraises, rfl⟩, rfl⟩
    obtain ⟨later, herror⟩ := hraises.eval_eq
    exact hasks.eval_eq_error hsource herror

/-- In a context that is in order the evaluation comes to an error as its value only if it fails. -/
theorem evaluate_eq_error_iff (hsource : source.WellFormed) (hstart : source.InOrder start) :
    (source.evaluate top start).1 = .error error ↔
      ∃ later, source.eval (source.stepBound start) top start = .error error later := by
  have hends := source.eval_ne_unfinished hsource (source.nesting_lt_stepBound top start)
  have hkeeps := source.governs_shapes hsource start.maxDepth (source.stepBound start) top () start
    ⟨hstart, rfl⟩
  rw [evaluate]
  cases houtcome : source.eval (source.stepBound start) top start with
  | value value later =>
      obtain ⟨_, -, -, hshaped, -⟩ := hkeeps.of_value houtcome
      refine iff_of_false (fun heq => ?_) (fun herror => ?_)
      · obtain rfl : value = .error error := heq
        exact hshaped
      · obtain ⟨_, heq⟩ := herror
        cases heq
  | error failure later =>
      refine ⟨fun heq => ?_, fun herror => ?_⟩
      · cases heq
        exact ⟨later, rfl⟩
      · obtain ⟨_, heq⟩ := herror
        cases heq
        rfl
  | unfinished => exact absurd houtcome hends

theorem Asks.growsTo (hsource : source.WellFormed) (h : source.Asks top start steps id context) :
    start.callStack.GrowsTo context.callStack := by
  induction h with
  | top => exact .refl
  | call _ hcall ih => exact ih.trans (hcall.pushes (source.eval_keepsCallStack _) hsource).growsTo

theorem RaisesAt.growsTo (hsource : source.WellFormed) {stack : CallStack}
    (h : source.RaisesAt top start node fault stack) : start.callStack.GrowsTo stack := by
  obtain ⟨steps, context, entered, moment, hasks, hraises, rfl⟩ := h
  exact (hasks.growsTo hsource).trans (hraises.pushes (source.eval_keepsCallStack steps)).growsTo

end

/-! ### Evaluating the root -/

section

variable {start moment : Context} {stack : CallStack}

theorem Calls.entered_of_block {statements : NodeRange} (hkind : source.kind id = .block statements)
    (h : source.Calls recur id context entered node later) : entered = some id := by
  cases h with
  | statement => rfl
  | value hother | subject hother | callee hother | argument hother | left hother | right hother
  | operand hother | condition hother | branch hother => cases hkind.symm.trans hother
  | demanded hother => rcases hother with hother | hother <;> cases hkind.symm.trans hother
  | default hconstructs | bodyStatement hconstructs =>
      obtain ⟨_, _, _, _, _, hother, -⟩ := hconstructs.called
      cases hkind.symm.trans hother

/-- A block raises an error only if it cannot be entered. -/
theorem Raises.full_of_block {statements : NodeRange} (hkind : source.kind id = .block statements)
    (h : source.Raises recur id context entered fault moment) :
    ¬ context.depth < context.maxDepth := by
  cases h with
  | blockRefused _ hfull => exact hfull
  | unvalued hother | unaccepted hother | property hother | binary hother | unary hother
  | condition hother => cases hkind.symm.trans hother
  | undefined hother => rcases hother with hother | hother <;> cases hkind.symm.trans hother
  | notStructure happlies | notDefinition happlies | tooMany happlies
  | constructionRefused happlies =>
      obtain ⟨_, _, _, hother, -⟩ := happlies
      cases hkind.symm.trans hother
  | unsupplied hconstructs | inputUnaccepted hconstructs =>
      obtain ⟨_, _, _, _, _, hother, -⟩ := hconstructs.called
      cases hkind.symm.trans hother

/-- An input is missed by a bind without a value that is evaluated itself, or in the frame of a
construction. -/
theorem Raises.of_missingInput {structureName input : String}
    (h : source.Raises recur id context entered (.missingInput structureName input) moment) :
    (∃ bind, source.kind id = .bind bind ∧ bind.value = none) ∨
    (∃ callee arguments, source.kind id = .evaluate callee arguments) ∧
      ∃ structureId definition, entered = some structureId ∧
        source.structure? structureId = some definition ∧
        structureName = source.nameText definition.name := by
  cases h with
  | unvalued hkind hvalue => exact .inl ⟨_, hkind, hvalue⟩
  | unsupplied hconstructs =>
      obtain ⟨callee, arguments, _, _, _, hkind, -⟩ := hconstructs.called
      exact .inr ⟨⟨callee, arguments, hkind⟩, _, _, rfl, hconstructs.defined, rfl⟩
  | property _ _ hproperty => exact (ofValues_of_propertyOf hproperty).elim
  | binary _ _ _ hoperator => exact (ofValues_of_binary hoperator).elim
  | unary _ _ hoperator => exact (ofValues_of_unary hoperator).elim

theorem Asks.exists_reached (h : source.Asks source.root start steps id context) :
    ∃ live, source.Reached start steps live id context := by
  induction h with
  | top => exact ⟨[], .root⟩
  | call _ hcall ih =>
      obtain ⟨live, hreached⟩ := ih
      exact ⟨_, hreached.call hcall⟩

/-- Whatever the root has evaluated is evaluated in the frame of its block. -/
theorem Asks.root_or_suffix (hsource : source.WellFormed)
    (h : source.Asks source.root start steps id context) :
    (id = source.root ∧ context = start) ∨
      ⟨.block, source.span source.root⟩ :: start.callStack.frames <:+ context.callStack.frames := by
  induction h with
  | top => exact .inl ⟨rfl, rfl⟩
  | @call steps _ _ _ _ _ _ hcall ih =>
      have hpushes := hcall.pushes (source.eval_keepsCallStack steps) hsource
      refine .inr ?_
      rcases ih with ⟨rfl, rfl⟩ | hsuffix
      · obtain ⟨statements, hkind⟩ := hsource.root_kind
        obtain rfl := hcall.entered_of_block hkind
        rw [hpushes.callStack]
        simp [frameFor, structure?, hkind]
      · exact hsuffix.trans hpushes.growsTo.suffix

/-- `source.Traces limit node fault stack backtrace`: what the backtrace of an error shows that was
raised while the root was evaluated under a limit. -/
structure Traces (source : Source) (limit : Nat) (node : NodeId) (fault : Fault)
    (stack : CallStack) (backtrace : Backtrace) : Prop where
  length_pos : 1 ≤ backtrace.length
  length_le : backtrace.length ≤ limit
  /-- The outermost frame is that of the block of the program. -/
  getLast? : backtrace.getLast? = some ⟨"<block>", source.span source.root⟩
  /-- An input is missed in a construction, whose frame is the innermost one. -/
  missingInput : ∀ structureName input, fault = .missingInput structureName input →
    (∃ callee arguments, source.kind node = .evaluate callee arguments) ∧
    (∃ structureId definition, stack.currentStructure? = some structureId ∧
      source.structure? structureId = some definition ∧
      structureName = source.nameText definition.name) ∧
    backtrace.head? = some ⟨structureName, source.span node⟩
  /-- The limit is exceeded where as many frames are being run as it allows. -/
  stackOverflow : ∀ other, fault = .stackOverflow other →
    other = limit ∧ backtrace.length = limit

/-- While the root is evaluated, an input is missed only in a construction: no bind without a value
is evaluated itself. -/
theorem RaisesAt.of_missingInput (hsource : source.WellFormed)
    (hcalls : start.callStack.frames = []) (hframes : start.frames = [])
    {structureName input : String}
    (h : source.RaisesAt source.root start node (.missingInput structureName input) stack) :
    (∃ callee arguments, source.kind node = .evaluate callee arguments) ∧
    (∃ structureId definition, stack.currentStructure? = some structureId ∧
      source.structure? structureId = some definition ∧
      structureName = source.nameText definition.name) ∧
    (stack.capture source.interner).head? = some ⟨structureName, source.span node⟩ := by
  obtain ⟨steps, context, entered, moment, hasks, hraises, rfl⟩ := h
  have hpushes := hraises.pushes (source.eval_keepsCallStack steps)
  rcases hraises.of_missingInput with
    ⟨bind, hkind, hvalue⟩ | ⟨hevaluate, structureId, definition, rfl, hdefined, rfl⟩
  · obtain ⟨live, hreached⟩ := hasks.exists_reached
    have hsituated := situated_of_reached hsource hcalls hframes hreached
    have hisSome := hsituated.value_isSome hkind
    rw [hvalue] at hisSome
    cases hisSome
  · have hmoment : moment.callStack.frames =
        ⟨.construct structureId definition.name, source.span node⟩ ::
          context.callStack.frames := by
      rw [hpushes.callStack]
      simp [frameFor, hdefined]
    refine ⟨hevaluate, ⟨structureId, definition, ?_, hdefined, rfl⟩, ?_⟩
    · simp [CallStack.currentStructure?, hmoment]
    · simp [CallStack.capture, hmoment, CallFrame.toBacktraceFrame, nameText]

/-- Above the empty stack and below the limit, an error of the root is raised with the frame of the
program at the bottom. -/
theorem RaisesAt.suffix (hsource : source.WellFormed) (hcalls : start.callStack.frames = [])
    (hlimit : 1 ≤ start.maxDepth) (h : source.RaisesAt source.root start node fault stack) :
    [⟨.block, source.span source.root⟩] <:+ stack.frames := by
  obtain ⟨steps, context, entered, moment, hasks, hraises, rfl⟩ := h
  rcases hasks.root_or_suffix hsource with ⟨rfl, rfl⟩ | hsuffix
  · obtain ⟨statements, hkind⟩ := hsource.root_kind
    have hfull := hraises.full_of_block hkind
    have hdepth : context.depth = 0 := congrArg List.length hcalls
    omega
  · rw [hcalls] at hsuffix
    have hpushes := hraises.pushes (source.eval_keepsCallStack steps)
    exact hsuffix.trans hpushes.growsTo.suffix

theorem RaisesAt.traces (hsource : source.WellFormed) (hcalls : start.callStack.frames = [])
    (hframes : start.frames = []) (hlimit : 1 ≤ start.maxDepth)
    (h : source.RaisesAt source.root start node fault stack) :
    ∃ backtrace, stack.snapshot source.interner = some backtrace ∧
      source.Traces start.maxDepth node fault stack backtrace := by
  obtain ⟨inner, hinner⟩ := h.suffix hsource hcalls hlimit
  have hpos : 1 ≤ stack.depth := by
    rw [CallStack.depth, ← hinner]
    simp
  have hgrows := h.growsTo hsource
  have hmaxDepth : stack.maxDepth = start.maxDepth := hgrows.maxDepth_eq
  have hle : stack.depth ≤ stack.maxDepth := by
    refine hgrows.depth_le ?_
    rw [CallStack.depth, hcalls]
    exact Nat.zero_le _
  have hlength : (stack.capture source.interner).length = stack.depth := List.length_map ..
  refine ⟨_, CallStack.snapshot_of_ne_nil (List.length_pos_iff.mp hpos), ?_, ?_, ?_, ?_, ?_⟩
  · rwa [hlength]
  · rwa [hlength, ← hmaxDepth]
  · rw [CallStack.capture, ← hinner]
    simp [CallFrame.toBacktraceFrame]
  · rintro structureName input rfl
    exact h.of_missingInput hsource hcalls hframes
  · rintro other rfl
    obtain ⟨steps, context, entered, moment, -, hraises, rfl⟩ := h
    obtain ⟨-, rfl, hfull⟩ := hraises.refused
    exact ⟨hmaxDepth, hlength.trans (Nat.le_antisymm (hmaxDepth ▸ hle)
      (hmaxDepth ▸ Nat.not_lt.mp hfull))⟩

end

/-! ### The errors of a program -/

theorem length_frames_used (history : List NodeId) (context : Context) :
    (source.used history context).frames.length = context.frames.length := by
  induction history generalizing context with
  | nil => rfl
  | cons id history ih =>
      exact (ih (source.evaluate id context).2).trans
        (restores_of_evaluate id context).length_frames

/-- Errors tell where they were raised. -/
structure Pinpoints (source : Source) : Prop where
  /-- However nodes have been evaluated in a context that was fresh at first, its stacks are empty,
  its limit is the same, and what it holds is in order; in particular it holds no errors. -/
  used : ∀ history limits owner,
    (source.used history (.fresh limits owner)).callStack = { maxDepth := limits.maxDepth } ∧
    (source.used history (.fresh limits owner)).frames = [] ∧
    source.InOrder (source.used history (.fresh limits owner))
  /-- An error is what is raised at some node, with the span of this node and with the frames being
  run at that moment. -/
  origin : ∀ id context error, source.InOrder context →
    ((source.evaluate id context).1 = .error error ↔
      ∃ node fault stack, source.RaisesAt id context node fault stack ∧
        error = source.errorAt node fault stack)
  /-- The error of a call is the error of the node that calls: neither this node nor the frame that
  has been entered for the call changes it. -/
  passes : ∀ steps id context entered node later error last,
    source.Calls (source.eval steps) id context entered node later →
    source.eval steps node later = .error error last →
    ∃ last', source.eval (steps + 1) id context = .error error last'
  /-- So it is the error of the whole evaluation. -/
  unchanged : ∀ top start steps id context error later,
    source.Asks top start steps id context →
    source.eval steps id context = .error error later →
    (source.evaluate top start).1 = .error error
  /-- Errors of the root have a backtrace, unless not even the root can be entered. -/
  root : ∀ context error, context.callStack.frames = [] → context.frames = [] →
    source.InOrder context → 1 ≤ context.maxDepth →
    (source.evaluateRoot context).1 = .error error →
    ∃ node stack backtrace,
      source.RaisesAt source.root context node error.fault stack ∧
      error = source.errorAt node error.fault stack ∧ error.backtrace = some backtrace ∧
      source.Traces context.maxDepth node error.fault stack backtrace

/-- Every error of a program points at where it was raised. -/
theorem pinpoints_of_parse {name text : String} {interner : Interner} {source : Source}
    (hparse : (parse name text interner).1 = .ok source) : source.Pinpoints := by
  have hsource := wellFormed_of_parse hparse
  refine ⟨fun history limits owner => ⟨?_, ?_, ?_⟩, fun id context error hcontext => ?_,
    fun _ _ _ _ _ _ _ _ hcalls herror => hcalls.eval_eq_error hsource herror,
    fun top start steps id context error later hasks herror => ?_,
    fun context error hcalls hframes hcontext hlimit herror => ?_⟩
  · exact callStack_used history _
  · exact List.eq_nil_of_length_eq_zero (length_frames_used history _)
  · have hholds : (source.shapes limits.maxDepth).holds () (.fresh limits owner) :=
      ⟨.fresh limits owner, rfl⟩
    obtain ⟨_, -, hused⟩ :=
      Discipline.of_used (source.governs_shapes hsource limits.maxDepth) hholds history
    exact hused.1
  · exact (evaluate_eq_error_iff hsource hcontext).trans (eval_eq_error_iff hsource)
  · obtain ⟨last, hlast⟩ := hasks.eval_eq_error hsource herror
    rw [evaluate, hlast]
  · obtain ⟨node, fault, stack, hraises, rfl⟩ :=
      (eval_eq_error_iff hsource).mp ((evaluate_eq_error_iff hsource hcontext).mp herror)
    obtain ⟨backtrace, hsnapshot, htraces⟩ := hraises.traces hsource hcalls hframes hlimit
    exact ⟨node, stack, backtrace, hraises, rfl, hsnapshot, htraces⟩

/-- A construction without its input, in a block inside of the program. -/
theorem pinpoints_of_parse_of_omission :
    ∃ source node stack backtrace,
      (parse "<code>" "•P(n) (k: n)\nx: (P())\nx" .empty).1 = .ok source ∧ source.Pinpoints ∧
      source.RaisesAt source.root (.fresh ⟨3⟩ 0) node (.missingInput "P" "n") stack ∧
      source.span node = ⟨19, 22⟩ ∧
      source.Traces 3 node (.missingInput "P" "n") stack backtrace ∧
      backtrace =
        [⟨"P", some ⟨19, 22⟩⟩, ⟨"<block>", some ⟨18, 23⟩⟩, ⟨"<block>", some ⟨0, 25⟩⟩] := by
  have hfacts : (parse "<code>" "•P(n) (k: n)\nx: (P())\nx" .empty).1.toOption.bind
      (fun source => (source.evaluateRoot (.fresh ⟨3⟩ 0)).1.asError?) =
      some ⟨.missingInput "P" "n", some ⟨19, 22⟩,
        some [⟨"P", some ⟨19, 22⟩⟩, ⟨"<block>", some ⟨18, 23⟩⟩, ⟨"<block>", some ⟨0, 25⟩⟩]⟩ := by
    decide +kernel
  obtain ⟨source, h, herror⟩ := exists_of_toOption_bind hfacts
  have hpinpoints := pinpoints_of_parse h
  obtain ⟨hcalls, hframes, hcontext⟩ := hpinpoints.used [] ⟨3⟩ 0
  obtain ⟨node, stack, backtrace, hraises, heq, hbacktrace, htraces⟩ :=
    hpinpoints.root (.fresh ⟨3⟩ 0) _ (congrArg CallStack.frames hcalls) hframes hcontext
      (Nat.succ_le_succ (Nat.zero_le 2)) (Value.eq_error_of_asError? herror)
  have hspan := congrArg EvalError.span heq
  exact ⟨source, node, stack, backtrace, h, hpinpoints, hraises, (Option.some.inj hspan).symm,
    htraces, (Option.some.inj hbacktrace).symm⟩

end Source
end Bindery
