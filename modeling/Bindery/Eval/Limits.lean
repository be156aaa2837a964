import Bindery.Number.Numeral
import Bindery.Text.Blank

/-!
How deeply blocks and constructions may nest in one evaluation. The limit can be set from outside as
a text; a text that is no positive 64-bit number leaves the default.
-/

namespace Bindery

structure Limits where
  /-- How many blocks and constructions may be run at once. -/
  maxDepth : Nat := 512
  deriving DecidableEq

namespace Limits

/-- The largest limit. -/
def greatestDepth : Nat := 0xffffffffffffffff

/-- Decimal digits with at most a plus sign before them. -/
def depth? (text : List Char) : Option Nat :=
  let digits := if text.head? = some '+' then text.tail else text
  if !digits.isEmpty && digits.all Char.isDigit then
    some (Numeral.natOfDigits digits)
  else none

/-- The limits under a setting, which may be missing. White space around it does not count. -/
def ofSetting : Option String → Limits
  | none => {}
  | some setting =>
    match depth? (Text.trim setting.toList) with
    | some depth => if 0 < depth ∧ depth ≤ greatestDepth then ⟨depth⟩ else {}
    | none => {}

example : ofSetting (some " +7\n") = ⟨7⟩ := by decide +kernel

example : ofSetting (some "0") = {} ∧ ofSetting (some "1_0") = {} := by decide +kernel

end Limits
end Bindery
