/-!
Spans are stretches of a text, counted in bytes of its UTF-8 form. The start belongs to a span and
the stop does not.
-/

namespace Bindery

/-- The bytes from `start` up to, and without, `stop`. -/
structure Span where
  start : Nat
  stop : Nat
  deriving DecidableEq, Inhabited

/-- Why a pair of offsets is no span: an offset has to fit in 32 bits. -/
inductive SpanError where
  | startTooLarge (offset : Nat)
  | stopTooLarge (offset : Nat)
  deriving DecidableEq

def SpanError.message : SpanError → String
  | .startTooLarge offset => s!"span start {offset} exceeds u32::MAX"
  | .stopTooLarge offset => s!"span end {offset} exceeds u32::MAX"

namespace Span

/-- The span of what stands nowhere in the text. -/
def nowhere : Span := ⟨0, 0⟩

def point (offset : Nat) : Span := ⟨offset, offset⟩

def maxOffset : Nat := 0xffffffff

/-- The span between two offsets. The start is looked at first. -/
def ofOffsets (start stop : Nat) : Except SpanError Span :=
  if start > maxOffset then .error (.startTooLarge start)
  else if stop > maxOffset then .error (.stopTooLarge stop)
  else .ok ⟨start, stop⟩

def length (span : Span) : Nat := span.stop - span.start

def isEmpty (span : Span) : Bool := span.start == span.stop

def contains (span : Span) (offset : Nat) : Bool :=
  decide (span.start ≤ offset) && decide (offset < span.stop)

/-- The smallest span that covers both. -/
def merge (a b : Span) : Span := ⟨min a.start b.start, max a.stop b.stop⟩

def text (span : Span) : String := s!"{span.start}..{span.stop}"

end Span

/-- How many bytes a text takes in UTF-8. -/
def utf8Length (text : List Char) : Nat := text.foldr (fun c length => c.utf8Size + length) 0

end Bindery
