import Bindery.Proofs.Eval.Abreast
import Bindery.Proofs.Eval.History
import Bindery.Proofs.Tree.Parsed

/-!
The two stacks of a context: the frames being run, and the values bound in each of them. Every early
exit of the evaluator passes the point where a frame is left, and a frame that is refused changes
neither stack. So an evaluation leaves the stacks as it found them, whatever it comes to, and on the
way they are of equal height, which is at most the limit unless they were higher at the start. None
of this depends on the tree, which need not be that of a program.
-/

namespace Bindery

namespace Context

/-- Each frame being run has its bound values. -/
def Balanced (context : Context) : Prop := context.frames.length = context.depth

instance (context : Context) : Decidable context.Balanced :=
  inferInstanceAs (Decidable (context.frames.length = context.depth))

/-- The stacks are what they were, apart from what is bound in the innermost frame. -/
structure Restores (context later : Context) : Prop where
  callStack : later.callStack = context.callStack
  length_frames : later.frames.length = context.frames.length
  tail_frames : later.frames.tail = context.frames.tail

/-- The stacks are of equal height, and neither they nor the limit exceed the bound. -/
structure Fits (bound : Nat) (context : Context) : Prop where
  balanced : context.Balanced
  depth_le : context.depth ≤ bound
  maxDepth_le : context.maxDepth ≤ bound

variable {own kept : NodeId → Prop} {context later inner : Context} {bound : Nat}

theorem Grows.restores (h : context.Grows own kept later) : context.Restores later :=
  ⟨h.callStack, h.length_frames, h.tail_frames⟩

theorem fresh_balanced (limits : Limits) (owner : Nat) : (fresh limits owner).Balanced := rfl

namespace Fits

theorem of_balanced (h : context.Balanced) : context.Fits (max context.maxDepth context.depth) :=
  ⟨h, Nat.le_max_right _ _, Nat.le_max_left _ _⟩

theorem restores (h : context.Fits bound) (hrestores : context.Restores later) :
    later.Fits bound := by
  obtain ⟨hcallStack, hlength, -⟩ := hrestores
  obtain ⟨hbalanced, hdepth, hmax⟩ := h
  refine ⟨?_, ?_, ?_⟩
  · rw [Balanced, hlength, hbalanced, depth, depth, hcallStack]
  · rwa [depth, hcallStack]
  · rwa [maxDepth, hcallStack]

/-- A frame is entered on both stacks, and only below the limit. -/
theorem enter {frame : CallFrame} (h : context.Fits bound)
    (henter : context.enter frame = .ok inner) : inner.Fits bound := by
  obtain ⟨hlt, rfl⟩ := enter_eq_ok.mp henter
  refine ⟨congrArg (· + 1) h.balanced, ?_, h.maxDepth_le⟩
  exact Nat.le_trans (Nat.succ_le_of_lt hlt) h.maxDepth_le

end Fits
end Context

namespace Source

variable {source : Source}

section

variable {steps : Nat} {context later : Context}

theorem restores_of_eval {id : NodeId}
    (h : (source.eval steps id context).context? = some later) : context.Restores later :=
  (source.eval_grows steps id context later h).restores

theorem restores_of_evalSequence {last : Value} {ids : List NodeId}
    (h : (evalSequence (source.eval steps) last ids context).context? = some later) :
    context.Restores later :=
  have hgrows := @evalSequence_congr _ Step.congruence_grows.toCongruence (source.eval steps)
    (source.eval steps) last ids context
    (fun _ id _ _ between _ _ => source.eval_grows steps id between) later h
  hgrows.restores

theorem restores_of_evalEach {ids : List NodeId}
    (h : (evalEach (source.eval steps) ids context).context? = some later) :
    context.Restores later :=
  have hgrows := @evalEach_congr _ Step.congruence_grows.toCongruence (source.eval steps)
    (source.eval steps) ids context
    (fun _ id _ _ between _ _ => source.eval_grows steps id between) later h
  hgrows.restores

theorem restores_of_supplyInputs {structureName : Name} {inputs : List NodeId}
    {arguments : List Value} {properties : Properties}
    (h : (source.supplyInputs (source.eval steps) structureName inputs arguments properties
      context).context? = some later) :
    context.Restores later :=
  have hgrows := @supplyInputs_congr source _ Step.congruence_grows.toCongruence
    (source.eval steps) (source.eval steps) structureName inputs arguments properties context
    (fun _ _ _ _ between _ id _ _ _ _ _ => source.eval_grows steps id between) later h
  hgrows.restores

theorem restores_of_runBody {statements : List NodeId} {properties : Properties}
    (h : (source.runBody (source.eval steps) statements properties context).context? =
      some later) :
    context.Restores later :=
  have hgrows := @runBody_congr source _ Step.congruence_grows.toCongruence (source.eval steps)
    (source.eval steps) statements properties context
    (fun _ id _ _ between _ _ => source.eval_grows steps id between) later h
  hgrows.restores

end

/-- `source.Passes steps id context between`: `id` is evaluated in `context`, evaluations being
nested at most `steps` deep, and on the way the evaluator has come to the context `between`. The
steps between two of these contexts bind a value, keep one or count an instance. -/
inductive Passes (source : Source) : (steps : Nat) → NodeId → Context → Context → Prop
  | start {steps id context} : Passes source steps id context context
  | finish {steps id context later} : (source.eval steps id context).context? = some later →
      Passes source steps id context later
  | nested {steps id context entered node later between} :
      source.Calls (source.eval steps) id context entered node later →
      Passes source steps node later between → Passes source (steps + 1) id context between
  /-- The frame of a block has been entered and some of the statements have been run. -/
  | inBlock {steps id context statements before after inner between} :
      source.kind id = .block statements → source.list statements = before ++ after →
      context.enter ⟨.block, source.span id⟩ = .ok inner →
      (evalSequence (source.eval steps) .none before inner).context? = some between →
      Passes source (steps + 1) id context between
  /-- The frame of a construction has been entered and some of the inputs have been bound. -/
  | supplying {steps id context structureId definition values inner before after between} :
      source.Constructs (source.eval steps) id context structureId definition values inner →
      source.list definition.inputs = before ++ after →
      (source.supplyInputs (source.eval steps) definition.name before values [] inner).context? =
        some between →
      Passes source (steps + 1) id context between
  /-- The inputs have been bound and some of the body has been run. -/
  | inBody {steps id context structureId definition values inner properties supplied before after
      between} :
      source.Constructs (source.eval steps) id context structureId definition values inner →
      source.supplyInputs (source.eval steps) definition.name (source.list definition.inputs) values
        [] inner = .value properties supplied →
      source.bodyStatements definition = before ++ after →
      (source.runBody (source.eval steps) before properties supplied).context? = some between →
      Passes source (steps + 1) id context between
  /-- The instance has been built and the frame has not been left yet. -/
  | built {steps id context structureId definition values inner value between} :
      source.Constructs (source.eval steps) id context structureId definition values inner →
      (do
        let properties ← source.supplyInputs (source.eval steps) definition.name
          (source.list definition.inputs) values []
        let properties ← source.runBody (source.eval steps) (source.bodyStatements definition)
          properties
        Step.build definition.name structureId properties) inner = .value value between →
      Passes source (steps + 1) id context between

section

variable {steps : Nat} {id : NodeId} {context : Context} {bound : Nat}

theorem Constructs.fits {structureId : NodeId} {definition : StructureNode} {values : List Value}
    {inner : Context}
    (h : source.Constructs (source.eval steps) id context structureId definition values inner)
    (hfits : context.Fits bound) : inner.Fits bound := by
  obtain ⟨callee, arguments, name, between, later, -, hcallee, harguments, henter⟩ := h.called
  have hbetween : between.Fits bound := hfits.restores (restores_of_eval (by rw [hcallee]; rfl))
  have hlater : later.Fits bound :=
    hbetween.restores (restores_of_evalEach (by rw [harguments]; rfl))
  exact hlater.enter henter

/-- One step into an evaluation keeps the two stacks at equal height and within the bound. -/
theorem Calls.fits {entered : Option NodeId} {node : NodeId} {later : Context}
    (h : source.Calls (source.eval steps) id context entered node later)
    (hfits : context.Fits bound) : later.Fits bound := by
  cases h with
  | value | demanded | subject | callee | left | operand | condition => exact hfits
  | statement _ _ henter hbefore =>
      exact (hfits.enter henter).restores (restores_of_evalSequence (by rw [hbefore]; rfl))
  | argument _ _ hcallee hbefore =>
      have hbetween := hfits.restores (restores_of_eval (by rw [hcallee]; rfl))
      exact hbetween.restores (restores_of_evalEach (by rw [hbefore]; rfl))
  | default hconstructs _ hbefore =>
      exact (hconstructs.fits hfits).restores (restores_of_supplyInputs (by rw [hbefore]; rfl))
  | bodyStatement hconstructs hinputs _ hbefore =>
      have hsupplied := (hconstructs.fits hfits).restores
        (restores_of_supplyInputs (by rw [hinputs]; rfl))
      exact hsupplied.restores (restores_of_runBody (by rw [hbefore]; rfl))
  | right _ hfirst | branch _ hfirst =>
      exact hfits.restores (restores_of_eval (by rw [hfirst]; rfl))

theorem Passes.fits {between : Context} (h : source.Passes steps id context between)
    (hfits : context.Fits bound) : between.Fits bound := by
  induction h with
  | start => exact hfits
  | finish hfinish => exact hfits.restores (restores_of_eval hfinish)
  | nested hcall _ ih => exact ih (hcall.fits hfits)
  | inBlock _ _ henter hbefore =>
      exact (hfits.enter henter).restores (restores_of_evalSequence hbefore)
  | supplying hconstructs _ hbefore =>
      exact (hconstructs.fits hfits).restores (restores_of_supplyInputs hbefore)
  | inBody hconstructs hinputs _ hbefore =>
      have hsupplied := (hconstructs.fits hfits).restores
        (restores_of_supplyInputs (by rw [hinputs]; rfl))
      exact hsupplied.restores (restores_of_runBody hbefore)
  | built hconstructs hbuilt =>
      obtain ⟨properties, supplied, hinputs, hbuilt⟩ := Step.exists_of_bind_eq_value hbuilt
      obtain ⟨properties', ran, hbody, hbuilt⟩ := Step.exists_of_bind_eq_value hbuilt
      have hsupplied := (hconstructs.fits hfits).restores
        (restores_of_supplyInputs (by rw [hinputs]; rfl))
      have hran := hsupplied.restores (restores_of_runBody (by rw [hbody]; rfl))
      cases hbuilt
      exact ⟨hran.balanced, hran.depth_le, hran.maxDepth_le⟩

end

theorem restores_of_evaluate (id : NodeId) (context : Context) :
    context.Restores (source.evaluate id context).2 := by
  cases houtcome : source.eval (source.stepBound context) id context with
  | value value later | error failure later =>
      have hlater : (source.eval (source.stepBound context) id context).context? = some later := by
        rw [houtcome]
        rfl
      rw [evaluate_snd hlater]
      exact restores_of_eval hlater
  | unfinished =>
      have hsnd : (source.evaluate id context).2 = context := by
        rw [evaluate, houtcome]
      rw [hsnd]
      exact ⟨rfl, rfl, rfl⟩

theorem callStack_used (history : List NodeId) (context : Context) :
    (source.used history context).callStack = context.callStack := by
  induction history generalizing context with
  | nil => rfl
  | cons id history ih =>
      exact (ih (source.evaluate id context).2).trans (restores_of_evaluate id context).callStack

def fault? : Outcome Value → Option Fault
  | .error error _ => some error.fault
  | _ => none

theorem exists_of_fault?_eq_some {outcome : Outcome Value} {fault : Fault}
    (h : fault? outcome = some fault) :
    ∃ error later, outcome = .error error later ∧ error.fault = fault := by
  cases outcome with
  | error error later => exact ⟨error, later, rfl, Option.some.inj h⟩
  | value | unfinished => cases h

/-- An evaluation leaves the stacks as it found them, and on the way they are of equal height. -/
theorem eval_balanced {context : Context} (hbalanced : context.Balanced) (steps : Nat)
    (id : NodeId) :
    (∀ later, (source.eval steps id context).context? = some later → context.Restores later) ∧
    (∀ between, source.Passes steps id context between →
      between.Balanced ∧ between.depth ≤ max context.maxDepth context.depth) ∧
    ∀ history limits owner, (source.used history (.fresh limits owner)).depth = 0 ∧
      (source.used history (.fresh limits owner)).currentStructure? = none := by
  refine ⟨fun later => restores_of_eval, fun between hpasses => ?_, fun history limits owner => ?_⟩
  · have hfits := hpasses.fits (.of_balanced hbalanced)
    exact ⟨hfits.balanced, hfits.depth_le⟩
  · rw [Context.depth, Context.currentStructure?, callStack_used]
    exact ⟨rfl, rfl⟩

/-- Above one frame a limit of two leaves room for the block of the program, but not for the block
inside it. -/
theorem eval_balanced_of_refusal :
    ∃ source error later,
      (parse "<code>" "a: (\"x\")\na" .empty).1 = .ok source ∧
      Context.Balanced ⟨⟨[⟨.block, none⟩], 2⟩, [[]], [], 0, 0⟩ ∧
      source.eval 3 source.root ⟨⟨[⟨.block, none⟩], 2⟩, [[]], [], 0, 0⟩ = .error error later ∧
      error.fault = .stackOverflow 2 ∧
      Context.Restores ⟨⟨[⟨.block, none⟩], 2⟩, [[]], [], 0, 0⟩ later := by
  have hfacts : (parse "<code>" "a: (\"x\")\na" .empty).1.toOption.bind
      (fun source => fault? (source.eval 3 source.root ⟨⟨[⟨.block, none⟩], 2⟩, [[]], [], 0, 0⟩)) =
      some (.stackOverflow 2) := by decide +kernel
  obtain ⟨source, h, hfault⟩ := exists_of_toOption_bind hfacts
  obtain ⟨error, later, houtcome, herror⟩ := exists_of_fault?_eq_some hfault
  have hbalanced : Context.Balanced ⟨⟨[⟨.block, none⟩], 2⟩, [[]], [], 0, 0⟩ := rfl
  have hrestores := (eval_balanced hbalanced 3 source.root).1 later (by rw [houtcome]; rfl)
  exact ⟨source, error, later, h, hbalanced, houtcome, herror, hrestores⟩

end Source
end Bindery
