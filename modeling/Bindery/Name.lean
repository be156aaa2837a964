/-!
Names stand for strings. A name is a position in a table that only grows, so comparing two names
is comparing two numbers, and a name keeps its string for as long as the table lives.
-/

namespace Bindery

/-- A string of a name table, given by its position there. -/
structure Name where
  index : Nat
  deriving DecidableEq, Inhabited

namespace Name

/-- The name of the empty string, which every table holds first. -/
def empty : Name := ⟨0⟩

/-- The form in which listings of a program show a name. -/
def listing (name : Name) : String := s!"Name({name.index})"

end Name

inductive InternError where
  /-- The table already holds as many strings as a 32-bit position can count. -/
  | overflow (count : Nat)
  deriving DecidableEq

def InternError.message : InternError → String
  | .overflow count => s!"interner exceeded capacity: {count} strings"

/-- A table of strings in the order in which they were first met. The empty string comes first. -/
structure Interner where
  strings : Array String := #[""]

namespace Interner

def empty : Interner := {}

instance : Inhabited Interner := ⟨empty⟩

/-- The largest position that a name can hold. -/
def maxIndex : Nat := 0xffffffff

/-- The name of a string that is already in the table. -/
def get? (interner : Interner) (s : String) : Option Name :=
  (interner.strings.findIdx? (· == s)).map Name.mk

/-- The string of a name; a name of no string in the table reads as the empty string. -/
def lookup (interner : Interner) (name : Name) : String :=
  interner.strings[name.index]?.getD ""

/-- The name of a string, which joins the end of the table if it is new. -/
def intern (interner : Interner) (s : String) : Name × Interner :=
  match interner.get? s with
  | some name => (name, interner)
  | none => (⟨interner.strings.size⟩, ⟨interner.strings.push s⟩)

theorem lookup_of_get? {interner : Interner} {s : String} {name : Name}
    (h : interner.get? s = some name) : interner.lookup name = s := by
  obtain ⟨i, hi, rfl⟩ := Option.map_eq_some_iff.1 h
  obtain ⟨hlt, heq, _⟩ := Array.findIdx?_eq_some_iff_getElem.1 hi
  simpa [lookup, hlt] using heq

theorem lookup_intern (interner : Interner) (s : String) :
    (interner.intern s).2.lookup (interner.intern s).1 = s := by
  cases h : interner.get? s with
  | some name => simp [intern, h, lookup_of_get? h]
  | none => simp [intern, h, lookup]

/-- A name keeps its string when the table grows. -/
theorem lookup_intern_of_lt (interner : Interner) (s : String) {name : Name}
    (h : name.index < interner.strings.size) :
    (interner.intern s).2.lookup name = interner.lookup name := by
  cases hs : interner.get? s with
  | some found => simp [intern, hs]
  | none => simp [intern, hs, lookup, Array.getElem?_push, Nat.ne_of_lt h]

/-- As `intern`, but a full table refuses a new string. -/
def tryIntern (interner : Interner) (s : String) : Except InternError (Name × Interner) :=
  match interner.get? s with
  | some name => .ok (name, interner)
  | none =>
    if interner.strings.size ≤ maxIndex then .ok (interner.intern s)
    else .error (.overflow interner.strings.size)

/-- How many strings the table holds, the empty string included. -/
def size (interner : Interner) : Nat := interner.strings.size

def isEmpty (interner : Interner) : Bool := interner.size == 0

def toList (interner : Interner) : List String := interner.strings.toList

def listing (interner : Interner) : String :=
  s!"SharedInterner(StringInterner \x7b len: {interner.size} \x7d)"

end Interner
end Bindery
