import Bindery.Tree.Arena

/-!
Numbering the pieces of a phrase. A piece gets its number after all pieces inside it, from left to
right, so the numbers are the post-order of the phrase. The name in a property access is a node
between its subject and the access. The children of a block, of an argument list and of the inputs
of a structure join the flat list when the last of them has its number; inputs join before the body
of their structure is numbered.
-/

namespace Bindery

/-- A step of numbering, which may add to the arena. -/
abbrev Numbering := StateM Arena

namespace Numbering

def add (kind : NodeKind) (span : Span) : Numbering NodeId :=
  fun arena => arena.add ⟨kind, span⟩

def addList (ids : List NodeId) : Numbering NodeRange :=
  fun arena => arena.addList ids

mutual

/-- Numbers a phrase and all pieces inside it. -/
def phrase : Phrase → Numbering NodeId
  | .block span statements => do
    let ids ← phrases statements
    add (.block (← addList ids)) span
  | .bind span name type value => do
    let value ← phrase? value
    add (.bind ⟨name, type, value⟩) span
  | .structureDef span name inputs body => do
    let ids ← phrases inputs
    let inputs ← addList ids
    let body ← phrase? body
    add (.structureDef ⟨name, inputs, body⟩) span
  | .property span subject member memberSpan => do
    let subject ← phrase subject
    let member ← add (.memberName member) memberSpan
    add (.property subject member) span
  | .reference span name => add (.reference name) span
  | .evaluate span callee arguments => do
    let callee ← phrase callee
    let ids ← phrases arguments
    add (.evaluate callee (← addList ids)) span
  | .number span bits => add (.number bits) span
  | .text span content => add (.text content) span
  | .boolean span value => add (.boolean value) span
  | .binary span op left right => do
    let left ← phrase left
    let right ← phrase right
    add (.binary op left right) span
  | .unary span op operand => do
    let operand ← phrase operand
    add (.unary op operand) span
  | .conditional span condition yes no => do
    let condition ← phrase condition
    let yes ← phrase yes
    let no ← phrase no
    add (.conditional condition yes no) span

/-- Numbers a phrase that may be missing. -/
def phrase? : Option Phrase → Numbering (Option NodeId)
  | none => return none
  | some p => return some (← phrase p)

/-- Numbers phrases from left to right. -/
def phrases : List Phrase → Numbering (List NodeId)
  | [] => return []
  | p :: rest => return (← phrase p) :: (← phrases rest)

end

end Numbering

/-- The arena of a phrase, and the number of the phrase itself. -/
def Phrase.numbered (phrase : Phrase) : NodeId × Arena := (Numbering.phrase phrase).run .empty

end Bindery
