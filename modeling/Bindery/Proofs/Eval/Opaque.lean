import Bindery.Proofs.Eval.Lockstep

/-!
Structures are opaque while they are run. A construction comes to the same whatever frames lie below
its own and whatever has been kept on demand, the activations of the structure itself among them: it
looks at its arguments, at how many frames can still be entered, and at nothing else.
-/

namespace Bindery

mutual

/-- All instances in the value have the property told by their identity. -/
def Value.Within (known : Identity → Prop) : Value → Prop
  | .inst identity _ _ properties => known identity ∧ PropertiesWithin known properties
  | .none | .text _ | .number _ | .boolean _ | .structureRef _ _ | .error _ => True

def PropertiesWithin (known : Identity → Prop) : List (Name × Value) → Prop
  | [] => True
  | (_, value) :: rest => value.Within known ∧ PropertiesWithin known rest

end

/-- Each identity that both contexts know stands for itself. -/
def Context.shared (context context' : Context) : Pairing := fun i i' =>
  i = i' ∧ context.Knows i ∧ context'.Knows i

mutual

theorem Value.Within.alike {context context' : Context} :
    ∀ {value : Value}, value.Within (fun i => context.Knows i ∧ context'.Knows i) →
      value.Alike (context.shared context') value
  | .inst .., h => ⟨_, _, rfl, ⟨rfl, h.1⟩, h.2.alike⟩
  | .none, _ | .text _, _ | .number _, _ | .boolean _, _ | .structureRef _ _, _ | .error _, _ => rfl

theorem PropertiesWithin.alike {context context' : Context} :
    ∀ {properties : List (Name × Value)},
      PropertiesWithin (fun i => context.Knows i ∧ context'.Knows i) properties →
        PropertiesAlike (context.shared context') properties properties
  | [], _ => rfl
  | (_, _) :: _, h => ⟨_, _, rfl, h.1.alike, h.2.alike⟩

end

namespace Source
open Lexical

variable {source : Source}

section

variable {R : (α : Type) → Context → Step α → Step α → Prop} (hR : Step.Congruence R)
  {recur recur' : NodeId → Step Value} (hrecur : KeepsCallStacks recur)
include hR hrecur

/-- What holds of an evaluator in all contexts of one call stack holds of what is run in a frame for
a construction. -/
theorem constructed_congr {inner : Context} (structureId : NodeId) (definition : StructureNode)
    (arguments : List Value)
    (h : ∀ node later, later.callStack = inner.callStack →
      R Value later (recur node) (recur' node)) :
    R Value inner
      (do
        let properties ← source.supplyInputs recur definition.name (source.list definition.inputs)
          arguments []
        let properties ← source.runBody recur (source.bodyStatements definition) properties
        Step.build definition.name structureId properties)
      (do
        let properties ← source.supplyInputs recur' definition.name (source.list definition.inputs)
          arguments []
        let properties ← source.runBody recur' (source.bodyStatements definition) properties
        Step.build definition.name structureId properties) := by
  refine hR.bind (supplyInputs_congr hR
    fun before input after properties later bind node _ hbefore _ _ _ =>
      h node later (callStack_of_supplyInputs hrecur hbefore))
        fun properties between hproperties => ?_
  have hbetween := callStack_of_supplyInputs hrecur hproperties
  exact hR.bind (runBody_congr hR fun before node after properties' later _ hbefore =>
    h node later ((callStack_of_runBody hrecur hbefore).trans hbetween))
    fun properties' later _ => hR.build later _ _ _

/-- What holds of an evaluator wherever one more frame has been entered holds of a construction. -/
theorem construct_congr {context : Context} (structureId : NodeId) (arguments : List Value)
    (callSpan : Span)
    (h : ∀ frame inner node later, context.enter frame = .ok inner →
      later.callStack = inner.callStack → R Value later (recur node) (recur' node)) :
    R Value context (source.construct recur structureId arguments callSpan)
      (source.construct recur' structureId arguments callSpan) := by
  simp only [construct]
  cases source.structure? structureId with
  | none => exact hR.fail context _
  | some definition =>
      simp only
      split
      · exact hR.fail context _
      · exact hR.inFrame _ fun inner henter => constructed_congr hR hrecur structureId definition
          arguments fun node later hlater => h _ inner node later henter hlater

end

/-- Evaluations may be nested deeply enough for whatever is run in one more frame. -/
def Suffices (source : Source) (steps : Nat) (context : Context) : Prop :=
  (context.maxDepth - context.depth) * (source.arena.size + 1) ≤ steps

/-- So they may be where a construction is reached. -/
theorem suffices_of_nesting_le {steps : Nat} {id : NodeId} {context : Context}
    (h : source.nesting id context ≤ steps) : source.Suffices steps context :=
  Nat.le_trans (Nat.le_add_right _ _) h

theorem construct_ne_unfinished (hsource : source.WellFormed) {steps : Nat} {context : Context}
    (hsteps : source.Suffices steps context) (structureId : NodeId) (arguments : List Value)
    (callSpan : Span) :
    source.construct (source.eval steps) structureId arguments callSpan context ≠ .unfinished := by
  have hends : Step.Ends Value context
      (source.construct (source.eval steps) structureId arguments callSpan)
      (source.construct (source.eval steps) structureId arguments callSpan) :=
    construct_congr Step.congruence_ends.toCongruence (source.eval_keepsCallStack steps) structureId
      arguments callSpan fun frame inner node later henter hlater => by
        refine source.eval_ne_unfinished hsource (Nat.lt_of_lt_of_le ?_ hsteps)
        obtain ⟨hlt, rfl⟩ := Context.enter_eq_ok.mp henter
        have hmax : later.maxDepth = context.maxDepth := by rw [Context.maxDepth, hlater]; rfl
        have hdepth : later.depth = context.depth + 1 := by rw [Context.depth, hlater]; rfl
        have hbudget : context.maxDepth - context.depth =
            (context.maxDepth - (context.depth + 1)) + 1 := by omega
        rw [nesting, hmax, hdepth, hbudget, Nat.add_mul, Nat.one_mul]
        omega
  exact hends

theorem frames_of_inFrame {α : Type} {interner : Interner} {frame : CallFrame} {step : Step α}
    {context later : Context}
    (hstep : ∀ inner between, (step inner).context? = some between →
      inner.Grows (fun _ => True) (fun _ => True) between)
    (h : (Step.inFrame interner frame step context).context? = some later) :
    later.frames = context.frames := by
  simp only [Step.inFrame] at h
  cases henter : context.enter frame with
  | error failure =>
      rw [henter] at h
      cases h
      rfl
  | ok inner =>
      rw [henter] at h
      have hleave {between : Context} (hbetween : (step inner).context? = some between) :
          between.leave.frames = context.frames := by
        obtain ⟨-, rfl⟩ := Context.enter_eq_ok.mp henter
        exact (hstep _ between hbetween).tail_frames
      cases hrun : step inner with
      | value result between | error failure between =>
          simp only [hrun] at h
          cases h
          exact hleave (by rw [hrun]; rfl)
      | unfinished =>
          simp only [hrun] at h
          cases h

/-- Whatever a construction comes to, the frames are then as they were. -/
theorem frames_of_construct {steps : Nat} {structureId : NodeId} {arguments : List Value}
    {callSpan : Span} {context later : Context}
    (h : (source.construct (source.eval steps) structureId arguments callSpan context).context? =
      some later) : later.frames = context.frames := by
  simp only [construct] at h
  cases hstructure : source.structure? structureId with
  | none =>
      rw [hstructure] at h
      cases h
      rfl
  | some definition =>
      simp only [hstructure] at h
      split at h
      · cases h
        rfl
      · refine frames_of_inFrame (fun inner between hbetween => ?_) h
        exact @constructed_congr source _ Step.congruence_grows.toCongruence (source.eval steps)
          (source.eval steps) (source.eval_keepsCallStack steps) inner structureId definition
          arguments (fun node later _ => source.eval_grows steps node later) between hbetween

/-- A construction changes nothing in its context but the count of instances. -/
theorem exists_built_of_construct (hsource : source.WellFormed) {steps : Nat} {structureId : NodeId}
    {arguments : List Value} {callSpan : Span} {context later : Context}
    (h : (source.construct (source.eval steps) structureId arguments callSpan context).context? =
      some later) : ∃ built, later = { context with built } := by
  have hframes := source.frames_of_construct h
  have hsimulates : Simulates context (fun value result frames => value = result ∧ frames = _)
      (source.construct (source.eval steps) structureId arguments callSpan
        (context.at context.frames context.built)) _ :=
    (source.agrees_eval hsource (source.program context) steps).construct rfl hsource
  rw [show context.at context.frames context.built = context from rfl] at hsimulates
  generalize source.construct (source.eval steps) structureId arguments callSpan context = outcome
    at h hsimulates
  generalize Lexical.Program.construct _ _ _ _ _ _ = run at hsimulates
  match run, hsimulates with
  | none, hunfinished =>
      rw [show outcome = .unfinished from hunfinished] at h
      cases h
  | some (.ok _, built), ⟨_, _, heq, _⟩ | some (.error _, built), ⟨_, _, heq, _⟩ =>
      rw [heq] at h
      cases h
      exact ⟨built, by rw [← hframes]; rfl⟩

/-- What constructions of a structure come to in two contexts: instances with the same properties in
the same order, or errors of the same kind at the same place, with the same frames above those in
which the constructions began. The identities correspond one to one, and what both contexts know
stays as it is. Neither the frames nor what was kept on demand are changed. -/
def ConstructedAlike (source : Source) (structureId : NodeId) (definition : StructureNode)
    (context context' : Context) (outcome outcome' : Outcome Value) : Prop :=
  (∃ pairing : Pairing, pairing.OneToOne ∧
    (∀ i, context.Knows i → context'.Knows i → pairing i i) ∧
    ∃ identity identity' properties properties' built built',
      outcome = .value (.inst identity definition.name structureId properties)
        { context with built } ∧
      outcome' = .value (.inst identity' definition.name structureId properties')
        { context' with built := built' } ∧
      pairing identity identity' ∧ PropertiesAlike pairing properties properties') ∨
  ∃ (error error' : EvalError) (built built' : Nat),
    outcome = .error error { context with built } ∧
    outcome' = .error error' { context' with built := built' } ∧
    error.fault = error'.fault ∧ error.span = error'.span ∧
    ∃ pushed : Option Backtrace,
      error.backtrace = pushed.map (· ++ context.callStack.capture source.interner) ∧
      error'.backtrace = pushed.map (· ++ context'.callStack.capture source.interner)

/-- A structure is constructed alike in any two contexts in which equally many frames are run and
may be run. The arguments are values that both contexts know. -/
theorem construct_opaque {name text : String} {interner : Interner} {source : Source}
    (h : (parse name text interner).1 = .ok source) {structureId : NodeId}
    {definition : StructureNode} (hkind : source.kind structureId = .structureDef definition)
    (arguments : List Value) (callSpan : Span) {context context' : Context}
    (hmax : context.maxDepth = context'.maxDepth) (hdepth : context.depth = context'.depth)
    (hknown : ∀ argument ∈ arguments,
      argument.Within fun i => context.Knows i ∧ context'.Knows i)
    {steps steps' : Nat} (hsteps : source.Suffices steps context)
    (hsteps' : source.Suffices steps' context') :
    source.ConstructedAlike structureId definition context context'
      (source.construct (source.eval steps) structureId arguments callSpan context)
      (source.construct (source.eval steps') structureId arguments callSpan context') := by
  generalize houtcome :
    source.construct (source.eval steps) structureId arguments callSpan context = outcome
  generalize houtcome' :
    source.construct (source.eval steps') structureId arguments callSpan context' = outcome'
  have hsource := wellFormed_of_parse h
  let comparison : Comparison :=
    ⟨False, context.callStack.frames, context'.callStack.frames, hdepth⟩
  have habreast : Abreast comparison [] (context.shared context') context context' :=
    ⟨⟨fun hi hj => hi.1.symm.trans hj.1, fun hi hj => hi.1.trans hj.1.symm⟩,
      fun i i' hi => ⟨hi.2.1, hi.1 ▸ hi.2.2⟩, .inr ⟨hmax, [], rfl, rfl⟩,
      fun _ hline => absurd hline List.not_mem_nil, fun _ hline => absurd hline List.not_mem_nil⟩
  have hchronicle : source.Chronicle comparison [] :=
    ⟨fun earlier line later heq => by simp at heq, fun _ hline => absurd hline List.not_mem_nil,
      fun _ hline => absurd hline List.not_mem_nil⟩
  have harguments : List.Forall₂ (Value.Alike (context.shared context')) arguments arguments :=
    List.forall₂_same.mpr fun argument hargument => (hknown argument hargument).alike
  have htwin : Twin comparison source.interner [] (fun _ => False) (context.shared context') context
      context' _ (source.construct (source.eval steps) structureId arguments callSpan context)
      (source.construct (source.eval steps') structureId arguments callSpan context') :=
    (source.lockstep_eval hsource comparison steps' steps).construct hsource hchronicle habreast
      harguments
  have hends := source.construct_ne_unfinished hsource hsteps structureId arguments callSpan
  have hends' := source.construct_ne_unfinished hsource hsteps' structureId arguments callSpan
  have hlater (later : Context) (hlater : outcome.context? = some later) :=
    exists_built_of_construct hsource (houtcome ▸ hlater)
  have hlater' (later : Context) (hlater : outcome'.context? = some later) :=
    exists_built_of_construct hsource (houtcome' ▸ hlater)
  rw [houtcome, houtcome'] at htwin
  rw [houtcome] at hends
  rw [houtcome'] at hends'
  cases htwin with
  | @value pairing value value' later later' hprogress habreast' hrelated =>
      obtain ⟨built, rfl⟩ := hlater _ rfl
      obtain ⟨built', rfl⟩ := hlater' _ rfl
      obtain ⟨identity, properties, rfl⟩ := hrelated.2 definition (structure?_eq_some.mpr hkind)
      obtain ⟨identity', properties', rfl, hidentity, hproperties⟩ := hrelated.1
      exact .inl ⟨pairing, habreast'.oneToOne, fun i hi hi' => hprogress.le i i ⟨rfl, hi, hi'⟩,
        identity, identity', properties, properties', built, built', rfl, rfl, hidentity,
        hproperties⟩
  | @error error error' later later' _ _ hfault hspan htraces =>
      obtain ⟨built, rfl⟩ := hlater _ rfl
      obtain ⟨built', rfl⟩ := hlater' _ rfl
      rcases htraces with hlax | htraces
      · exact hlax.elim
      · exact .inr ⟨error, error', built, built', rfl, rfl, hfault, hspan, htraces⟩
  | unfinishedLeft => exact absurd rfl hends
  | unfinishedRight => exact absurd rfl hends'
  | overflowLeft hlax => exact hlax.elim
  | overflowRight hlax => exact hlax.elim

/-- A structure that constructs itself: in a block, and where an older activation of it has left
other values. -/
theorem construct_opaque_of_recursion :
    ∃ source definition,
      (parse "<code>" "•P(n: 0) (m: if n < 1 then n else P(n - 1).m)" .empty).1 = .ok source ∧
      source.kind ⟨16⟩ = .structureDef definition ∧
      let context : Context :=
        { callStack := { frames := [⟨.block, none⟩], maxDepth := 512 }, owner := 0 }
      let context' : Context :=
        { callStack := { frames := [⟨.construct ⟨16⟩ definition.name, none⟩], maxDepth := 512 }
          frames := [[(⟨1⟩, .text "old")]]
          demanded := [(⟨1⟩, .boolean true), (⟨14⟩, .none)]
          owner := 1
          built := 3 }
      source.ConstructedAlike ⟨16⟩ definition context context'
        (source.construct (source.eval (source.stepBound context)) ⟨16⟩ [.number 2] ⟨0, 1⟩ context)
        (source.construct (source.eval (source.stepBound context')) ⟨16⟩ [.number 2] ⟨0, 1⟩
          context') := by
  obtain ⟨definition, hdefinition⟩ := Option.isSome_iff_exists.mp
    (show ((parse "<code>" "•P(n: 0) (m: if n < 1 then n else P(n - 1).m)" .empty).1.toOption.bind
      (·.structure? ⟨16⟩)).isSome = true by decide +kernel)
  obtain ⟨source, h, hstructure⟩ := exists_of_toOption_bind hdefinition
  have hkind := structure?_eq_some.mp hstructure
  refine ⟨source, definition, h, hkind, ?_⟩
  intro context context'
  refine construct_opaque h hkind [.number 2] ⟨0, 1⟩
    (show context.maxDepth = context'.maxDepth from rfl)
    (show context.depth = context'.depth from rfl) (fun argument hargument => ?_)
    (suffices_of_nesting_le (Nat.le_of_lt (source.nesting_lt_stepBound ⟨0⟩ context)))
    (suffices_of_nesting_le (Nat.le_of_lt (source.nesting_lt_stepBound ⟨0⟩ context')))
  rw [List.mem_singleton.mp hargument]
  trivial

end Source
end Bindery
