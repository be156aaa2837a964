import Bindery.Proofs.Eval.Steady

/-!
Two runs in tandem. They start where the inner binds are alike and the outer ones are settled, so
whatever one of them keeps and the other one has to demand comes to the same: there was an
evaluation of the bind before, and it is in tandem with the one on demand. If the runs are compared
strictly, they have the same frames and the second one keeps whatever the first one keeps. Then it
exceeds its limit only where the first one does.
-/

namespace Bindery

/-- All identities stand for each other. -/
def Pairing.any : Pairing := fun _ _ => True

/-- Each run has kept of the outer binds no more than it kept before or the other one keeps. -/
structure Context.Pace (outer : List Definition) (context context' later later' : Context) :
    Prop where
  grown : ∀ bind, context.Keeps bind → later.Keeps bind
  grown' : ∀ bind, context'.Keeps bind → later'.Keeps bind
  left : ∀ bind, .bind bind ∈ outer → later.Keeps bind → context.Keeps bind ∨ later'.Keeps bind
  right : ∀ bind, .bind bind ∈ outer → later'.Keeps bind → context'.Keeps bind ∨ later.Keeps bind

/-- Two runs have come to alike values, each having kept no more than it could. -/
abbrev AlikeInPace (outer : List Definition) (context context' : Context) (value : Value)
    (later : Context) (value' : Value) (later' : Context) : Prop :=
  value.Alike Pairing.any value' ∧ context.Pace outer context' later later'

/-- The outcomes of two runs: both come to values as `post` tells, or both fail. Either may exceed
its limit instead, but the second one of runs that are compared strictly. Nothing is said of runs
that are given up. -/
inductive Tandem {α β : Type} (strict : Prop) (post : α → Context → β → Context → Prop) :
    Outcome α → Outcome β → Prop
  | value {result later result' later'} : post result later result' later' →
      Tandem strict post (.value result later) (.value result' later')
  | error {error later error' later'} :
      (strict → error' = error ∧ later'.callStack = later.callStack) →
      Tandem strict post (.error error later) (.error error' later')
  | overflowLeft {error : EvalError} {later outcome'} : error.Overflows →
      Tandem strict post (.error error later) outcome'
  | overflowRight {outcome} {error' : EvalError} {later'} : ¬ strict → error'.Overflows →
      Tandem strict post outcome (.error error' later')
  | unfinishedLeft {outcome'} : Tandem strict post .unfinished outcome'
  | unfinishedRight {outcome} : Tandem strict post outcome .unfinished

namespace Context.Pace

variable {outer : List Definition}
  {context context' inner inner' between between' later later' : Context}

theorem refl : context.Pace outer context' context context' :=
  ⟨fun _ h => h, fun _ h => h, fun _ _ => .inl, fun _ _ => .inl⟩

theorem symm (h : context.Pace outer context' later later') :
    context'.Pace outer context later' later :=
  ⟨h.grown', h.grown, h.right, h.left⟩

theorem trans (h : context.Pace outer context' between between')
    (h' : between.Pace outer between' later later') :
    context.Pace outer context' later later' where
  grown bind hbind := h'.grown bind (h.grown bind hbind)
  grown' bind hbind := h'.grown' bind (h.grown' bind hbind)
  left bind hmem hbind := (h'.left bind hmem hbind).elim
    (fun hbetween => (h.left bind hmem hbetween).imp (fun h => h) (h'.grown' bind)) .inr
  right bind hmem hbind := (h'.right bind hmem hbind).elim
    (fun hbetween => (h.right bind hmem hbetween).imp (fun h => h) (h'.grown bind)) .inr

theorem ne_of_mem {bind other : NodeId} (hbind : .bind bind ∉ outer)
    (hother : .bind other ∈ outer) : other ≠ bind := fun heq => hbind (heq ▸ hother)

theorem record {bind : NodeId} (h : context.Pace outer context' later later')
    (hbind : .bind bind ∉ outer) (value value' : Value) :
    context.Pace outer context' (later.record bind value) (later'.record bind value') where
  grown other hother := (h.grown other hother).record bind value
  grown' other hother := (h.grown' other hother).record bind value'
  left other hmem hother :=
    (h.left other hmem (keeps_of_record (ne_of_mem hbind hmem) hother)).imp_right
      (·.record bind value')
  right other hmem hother :=
    (h.right other hmem (keeps_of_record (ne_of_mem hbind hmem) hother)).imp_right
      (·.record bind value)

/-- Frames that are entered and left do not matter. -/
theorem inFrame {frame : CallFrame} (henter : context.enter frame = .ok inner)
    (henter' : context'.enter frame = .ok inner') (h : inner.Pace outer inner' later later') :
    context.Pace outer context' later.leave later'.leave := by
  obtain ⟨-, rfl⟩ := Context.enter_eq_ok.mp henter
  obtain ⟨-, rfl⟩ := Context.enter_eq_ok.mp henter'
  exact ⟨h.grown, h.grown', h.left, h.right⟩

end Context.Pace

namespace Tandem

variable {α β γ δ : Type} {strict : Prop} {post post' : α → Context → β → Context → Prop}
  {context context' : Context}

theorem weaken {outcome : Outcome α} {outcome' : Outcome β}
    (h : Tandem strict post outcome outcome')
    (hpost : ∀ result later result' later', outcome = .value result later →
      outcome' = .value result' later' → post result later result' later' →
      post' result later result' later') : Tandem strict post' outcome outcome' := by
  cases h with
  | value hvalue => exact .value (hpost _ _ _ _ rfl rfl hvalue)
  | error herror => exact .error herror
  | overflowLeft hover => exact .overflowLeft hover
  | overflowRight hlax hover => exact .overflowRight hlax hover
  | unfinishedLeft => exact .unfinishedLeft
  | unfinishedRight => exact .unfinishedRight

/-- Runs that are not compared strictly may change places. -/
theorem symm (hlax : ¬ strict) {outcome : Outcome α} {outcome' : Outcome β}
    (h : Tandem strict post outcome outcome') :
    Tandem strict (fun result' later' result later => post result later result' later') outcome'
      outcome := by
  cases h with
  | value hvalue => exact .value hvalue
  | error _ => exact .error fun hstrict => absurd hstrict hlax
  | overflowLeft hover => exact .overflowRight hlax hover
  | overflowRight _ hover => exact .overflowLeft hover
  | unfinishedLeft => exact .unfinishedRight
  | unfinishedRight => exact .unfinishedLeft

theorem bind {after : γ → Context → δ → Context → Prop} {first : Step α} {first' : Step β}
    {next : α → Step γ} {next' : β → Step δ}
    (hfirst : Tandem strict post (first context) (first' context'))
    (hnext : ∀ result later result' later', post result later result' later' →
      Tandem strict after (next result later) (next' result' later')) :
    Tandem strict after ((first >>= next) context) ((first' >>= next') context') := by
  rw [Step.bind_apply, Step.bind_apply]
  generalize first context = outcome at hfirst ⊢
  generalize first' context' = outcome' at hfirst ⊢
  cases hfirst with
  | value hvalue => exact hnext _ _ _ _ hvalue
  | error herror => exact .error herror
  | overflowLeft hover => exact .overflowLeft hover
  | overflowRight hlax hover => exact .overflowRight hlax hover
  | unfinishedLeft => exact .unfinishedLeft
  | unfinishedRight => exact .unfinishedRight

theorem fail (hstacks : strict → context'.callStack = context.callStack) (fault : Fault) :
    Tandem strict post ((Step.fail fault : Step α) context)
      ((Step.fail fault : Step β) context') :=
  .error fun hstrict => ⟨rfl, hstacks hstrict⟩

theorem located {interner : Interner} {span : Span} {step : Step α} {step' : Step β}
    (h : Tandem strict post (step context) (step' context')) :
    Tandem strict post (Step.located interner span step context)
      (Step.located interner span step' context') := by
  simp only [Step.located]
  generalize step context = outcome at h ⊢
  generalize step' context' = outcome' at h ⊢
  cases h with
  | value hvalue => exact .value hvalue
  | error herror =>
      refine .error fun hstrict => ?_
      obtain ⟨rfl, hstacks⟩ := herror hstrict
      exact ⟨by rw [hstacks], hstacks⟩
  | overflowLeft hover => exact .overflowLeft (hover.of_fault_eq (CallStack.fault_attach ..))
  | overflowRight hlax hover =>
      exact .overflowRight hlax (hover.of_fault_eq (CallStack.fault_attach ..))
  | unfinishedLeft => exact .unfinishedLeft
  | unfinishedRight => exact .unfinishedRight

theorem inFrame {interner : Interner} {frame : CallFrame} {step : Step α} {step' : Step β}
    (hstacks : strict → context'.callStack = context.callStack)
    (h : ∀ inner inner', context.enter frame = .ok inner → context'.enter frame = .ok inner' →
      Tandem strict (fun result later result' later' =>
        post result later.leave result' later'.leave) (step inner) (step' inner')) :
    Tandem strict post (Step.inFrame interner frame step context)
      (Step.inFrame interner frame step' context') := by
  simp only [Step.inFrame]
  cases henter : context.enter frame with
  | error failure =>
      obtain ⟨-, rfl⟩ := Context.enter_eq_error.mp henter
      exact .overflowLeft ⟨_, rfl⟩
  | ok inner =>
      cases henter' : context'.enter frame with
      | error failure' =>
          obtain ⟨hlimit, rfl⟩ := Context.enter_eq_error.mp henter'
          refine .overflowRight (fun hstrict => hlimit ?_) ⟨_, rfl⟩
          rw [Context.depth, Context.maxDepth, hstacks hstrict]
          exact (Context.enter_eq_ok.mp henter).1
      | ok inner' =>
          have hrun := h inner inner' henter henter'
          simp only
          generalize step inner = outcome at hrun ⊢
          generalize step' inner' = outcome' at hrun ⊢
          cases hrun with
          | value hvalue => exact .value hvalue
          | error herror =>
              refine .error fun hstrict => ?_
              obtain ⟨rfl, hstacks'⟩ := herror hstrict
              exact ⟨by rw [hstacks'], by simp only [Context.leave, hstacks']⟩
          | overflowLeft hover =>
              exact .overflowLeft (hover.of_fault_eq (CallStack.fault_attach ..))
          | overflowRight hlax hover =>
              exact .overflowRight hlax (hover.of_fault_eq (CallStack.fault_attach ..))
          | unfinishedLeft => exact .unfinishedLeft
          | unfinishedRight => exact .unfinishedRight

theorem ofExcept {pairing : Pairing} {post : Value → Context → Value → Context → Prop}
    {result result' : Except Fault Value} (h : ResultsAlike pairing result result')
    (hstacks : strict → context'.callStack = context.callStack)
    (hpost : ∀ value value', value.Alike pairing value' → post value context value' context') :
    Tandem strict post (Step.ofExcept result context) (Step.ofExcept result' context') := by
  cases h with
  | ok halike => exact .value (hpost _ _ halike)
  | error fault => exact .fail hstacks fault

theorem sober {post : Value → Context → Value → Context → Prop} {step step' : Step Value}
    (h : Tandem strict post (step context) (step' context')) :
    Tandem strict post (Source.sober step context) (Source.sober step' context') := by
  rcases Source.sober_eq step context with hsober | hsober <;> rw [hsober]
  · exact .unfinishedLeft
  · rcases Source.sober_eq step' context' with hsober' | hsober' <;> rw [hsober']
    · exact .unfinishedRight
    · exact h

end Tandem
end Bindery
