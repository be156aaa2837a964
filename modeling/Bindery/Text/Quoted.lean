import Bindery.Text.Unprintable

/-!
Quoted text. The quote and the backslash stand behind a backslash, the usual control characters have
letters of their own, and other unprintable characters are written by their code point.
-/

namespace Bindery.Text

/-- The written form of a character inside double quotes. -/
def escape (c : Char) : String :=
  if c = '\x00' then "\\0"
  else if c = '\t' then "\\t"
  else if c = '\r' then "\\r"
  else if c = '\n' then "\\n"
  else if c = '\\' then "\\\\"
  else if c = '\x22' then "\\\""
  else if isUnprintable c then "\\u\x7b" ++ String.ofList (Nat.toDigits 16 c.toNat) ++ "\x7d"
  else c.toString

/-- A text in double quotes. -/
def quote (text : String) : String :=
  "\"" ++ String.join (text.toList.map escape) ++ "\""

example : quote "a\"b\\c\n'" = "\"a\\\"b\\\\c\\n'\"" := by decide +kernel

end Bindery.Text
