import Bindery.Eval.Context

/-!
Steps of evaluation. A step changes the context and comes to a result or to an error; the changes
that it made before an error remain. A step that may nest only so many further steps can also be
left unfinished, which is neither.
-/

namespace Bindery

/-- What a step comes to. -/
inductive Outcome (α : Type) where
  | value (result : α) (context : Context)
  | error (error : EvalError) (context : Context)
  | unfinished

def Step (α : Type) : Type := Context → Outcome α

namespace Step

variable {α β : Type}

@[always_inline, inline]
protected def pure (result : α) : Step α := fun context => .value result context

@[always_inline, inline]
protected def bind (first : Step α) (next : α → Step β) : Step β := fun context =>
  match first context with
  | .value result context => next result context
  | .error error context => .error error context
  | .unfinished => .unfinished

@[always_inline]
instance : Monad Step where
  pure := Step.pure
  bind := Step.bind

instance : LawfulMonad Step :=
  .mk' Step
    (fun step => by
      funext context
      show Step.bind step (fun result => Step.pure (id result)) context = step context
      simp only [Step.bind]
      cases step context <;> rfl)
    (fun _ _ => rfl)
    (fun first next last => by
      funext context
      show Step.bind (Step.bind first next) last context =
        Step.bind first (fun result => Step.bind (next result) last) context
      simp only [Step.bind]
      cases first context <;> rfl)

/-- Fails without a place or a backtrace. -/
def fail (fault : Fault) : Step α := fun context => .error { fault } context

def giveUp : Step α := fun _ => .unfinished

def lookup? (bind : NodeId) : Step (Option Value) := fun context =>
  .value (context.lookup? bind) context

def record (bind : NodeId) (value : Value) : Step Unit := fun context =>
  .value () (context.record bind value)

def keep (bind : NodeId) (value : Value) : Step Unit := fun context =>
  .value () (context.keep bind value)

/-- Builds an instance under an identity of its own. -/
def build (typeName : Name) (definition : NodeId) (properties : Properties) : Step Value :=
  fun context =>
    .value (.inst context.nextIdentity typeName definition properties)
      { context with built := context.built + 1 }

/-- Gives the errors of a step the place of the node that was evaluated and the frames being run, as
far as they have none. -/
def located (interner : Interner) (span : Span) (step : Step α) : Step α := fun context =>
  match step context with
  | .error error context =>
    .error (context.callStack.attach (error.orSpan span) interner) context
  | outcome => outcome

/-- Runs a step in a frame of its own, which is left whatever the step comes to. -/
def inFrame (interner : Interner) (frame : CallFrame) (step : Step α) : Step α := fun context =>
  match context.enter frame with
  | .error error => .error error context
  | .ok context =>
    match step context with
    | .value result context => .value result context.leave
    | .error error context => .error (context.callStack.attach error interner) context.leave
    | .unfinished => .unfinished

end Step
end Bindery
