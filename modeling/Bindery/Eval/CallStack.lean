import Bindery.Eval.Error
import Bindery.Tree.Arena

/-!
The call stack holds a frame for every block and every construction that is being run. It has a
limit, which is what ends the evaluation of structures that construct themselves.
-/

namespace Bindery

inductive FrameKind where
  | block
  | construct (definition : NodeId) (name : Name)
  deriving DecidableEq

structure CallFrame where
  kind : FrameKind
  /-- The block, or the evaluation, that entered the frame. -/
  callSpan : Option Span
  deriving DecidableEq

/-- A frame as a backtrace shows it. -/
def CallFrame.toBacktraceFrame (frame : CallFrame) (interner : Interner) : BacktraceFrame where
  name := match frame.kind with
    | .block => "<block>"
    | .construct _ name => interner.lookup name
  span := frame.callSpan

structure CallStack where
  /-- The frames being run, innermost first. -/
  frames : List CallFrame := []
  maxDepth : Nat
  deriving DecidableEq

namespace CallStack

def depth (stack : CallStack) : Nat := stack.frames.length

def isEmpty (stack : CallStack) : Bool := stack.frames.isEmpty

/-- Enters a frame, unless that would exceed the limit. -/
def push (stack : CallStack) (frame : CallFrame) : Except EvalError CallStack :=
  if stack.depth < stack.maxDepth then .ok { stack with frames := frame :: stack.frames }
  else .error { fault := .stackOverflow stack.maxDepth }

def pop (stack : CallStack) : CallStack := { stack with frames := stack.frames.tail }

theorem depth_push {stack further : CallStack} {frame : CallFrame}
    (h : stack.push frame = .ok further) : further.depth = stack.depth + 1 := by
  unfold push at h
  split at h
  · cases h; rfl
  · cases h

theorem pop_push {stack further : CallStack} {frame : CallFrame}
    (h : stack.push frame = .ok further) : further.pop = stack := by
  unfold push at h
  split at h
  · cases h; rfl
  · cases h

/-- The definition of the innermost structure under construction. -/
def currentStructure? (stack : CallStack) : Option NodeId :=
  stack.frames.findSome? fun frame =>
    match frame.kind with
    | .construct definition _ => some definition
    | .block => none

def capture (stack : CallStack) (interner : Interner) : Backtrace :=
  stack.frames.map (·.toBacktraceFrame interner)

/-- Gives an error the frames being run as its backtrace, unless it has a backtrace or there are no
frames. -/
def attach (stack : CallStack) (error : EvalError) (interner : Interner) : EvalError :=
  if stack.isEmpty || error.backtrace.isSome then error
  else { error with backtrace := some (stack.capture interner) }

end CallStack
end Bindery
