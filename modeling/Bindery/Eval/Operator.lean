import Bindery.Eval.Value

/-!
What operators make of evaluated operands. Sums are of two numbers or two texts; equality compares
any two values; everything else wants numbers, or booleans.
-/

namespace Bindery

/-- The operands that an operator wants. -/
def BinaryOp.operands : BinaryOp → String
  | .add => "numbers or texts"
  | .subtract | .multiply | .divide | .less | .lessEqual | .greater | .greaterEqual => "numbers"
  | .and | .or => "booleans"
  | .equal | .notEqual => "values"

def BinaryOp.apply (interner : Interner) (op : BinaryOp) (left right : Value) :
    Except Fault Value :=
  match op, left, right with
  | .add, .number a, .number b => .ok (.number (a + b))
  | .add, .text a, .text b => .ok (.text (a ++ b))
  | .subtract, .number a, .number b => .ok (.number (a - b))
  | .multiply, .number a, .number b => .ok (.number (a * b))
  | .divide, .number a, .number b => .ok (.number (a / b))
  | .equal, a, b => .ok (.boolean (a == b))
  | .notEqual, a, b => .ok (.boolean (a != b))
  | .less, .number a, .number b => .ok (.boolean (a < b))
  | .lessEqual, .number a, .number b => .ok (.boolean (a ≤ b))
  | .greater, .number a, .number b => .ok (.boolean (b < a))
  | .greaterEqual, .number a, .number b => .ok (.boolean (b ≤ a))
  | .and, .boolean a, .boolean b => .ok (.boolean (a && b))
  | .or, .boolean a, .boolean b => .ok (.boolean (a || b))
  | _, _, _ =>
    .error (.typeMismatch s!"{op.operands} for `{op.symbol}`"
      s!"{left.typeName interner} and {right.typeName interner}")

/-- The operand that an operator wants. -/
def UnaryOp.operand : UnaryOp → String
  | .negate => "number"
  | .not => "boolean"

def UnaryOp.apply (interner : Interner) (op : UnaryOp) (operand : Value) : Except Fault Value :=
  match op, operand with
  | .negate, .number a => .ok (.number (-a))
  | .not, .boolean a => .ok (.boolean (!a))
  | _, _ => .error (.typeMismatch s!"{op.operand} for `{op.symbol}`" (operand.typeName interner))

end Bindery
