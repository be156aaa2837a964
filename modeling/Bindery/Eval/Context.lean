import Bindery.Eval.CallStack
import Bindery.Eval.Limits
import Bindery.Eval.Value

/-!
The state of evaluation: the frames being run with the values bound in each of them, and the values
of binds that were asked for while no frame held them. A context outlives an evaluation and keeps
these last values.
-/

namespace Bindery

/-- The values of the binds evaluated in one block or one construction, newest first. -/
abbrev Frame := List (NodeId × Value)

structure Context where
  callStack : CallStack
  /-- The values bound in the frames of the call stack, innermost first. -/
  frames : List Frame := []
  /-- The values of binds evaluated outside any frame, or on demand. -/
  demanded : Frame := []
  /-- What sets the instances built here apart from those built in other contexts. -/
  owner : Nat
  /-- How many instances have been built here. -/
  built : Nat := 0

namespace Context

def fresh (limits : Limits) (owner : Nat) : Context where
  callStack := { maxDepth := limits.maxDepth }
  owner

def depth (context : Context) : Nat := context.callStack.depth

def maxDepth (context : Context) : Nat := context.callStack.maxDepth

def currentStructure? (context : Context) : Option NodeId := context.callStack.currentStructure?

/-- The value of an evaluated bind, looked for in the innermost frame first. -/
def lookup? (context : Context) (bind : NodeId) : Option Value :=
  (context.frames.findSome? (·.lookup bind)).or (context.demanded.lookup bind)

def keep (context : Context) (bind : NodeId) (value : Value) : Context :=
  { context with demanded := (bind, value) :: context.demanded }

/-- Binds a value in the innermost frame, or keeps it as if on demand if there is no frame. -/
def record (context : Context) (bind : NodeId) (value : Value) : Context :=
  match context.frames with
  | [] => context.keep bind value
  | frame :: outer => { context with frames := ((bind, value) :: frame) :: outer }

/-- Enters a frame in which nothing is bound yet. -/
def enter (context : Context) (frame : CallFrame) : Except EvalError Context :=
  (context.callStack.push frame).map fun callStack =>
    { context with callStack, frames := [] :: context.frames }

/-- Leaves the innermost frame and the values bound in it. -/
def leave (context : Context) : Context :=
  { context with callStack := context.callStack.pop, frames := context.frames.tail }

/-- A frame that is entered and left again leaves no trace. -/
theorem leave_enter {context inner : Context} {frame : CallFrame}
    (h : context.enter frame = .ok inner) : inner.leave = context := by
  unfold enter at h
  cases hp : context.callStack.push frame with
  | error e => simp [hp, Except.map] at h
  | ok stack =>
    simp only [hp, Except.map, Except.ok.injEq] at h
    subst h
    simp [leave, CallStack.pop_push hp]

def nextIdentity (context : Context) : Identity := ⟨context.owner, context.built⟩

end Context
end Bindery
