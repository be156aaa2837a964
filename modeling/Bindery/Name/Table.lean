import Bindery.Name
import Bindery.Positions

/-!
Name tables as their holders use them. Beside its strings a table keeps the positions at which they
stand, so that a string is found without a search. A handle stands for a table, and a clone of it
for the same table, so what is named through one of them is known through all.
-/

namespace Bindery

/-- A table of strings that knows where each of them stands. -/
structure NameTable extends Interner where
  positions : Positions String

namespace NameTable

def empty : NameTable := { positions := [("", 0)] }

/-- The name of a string that is already in the table. -/
def get? (table : NameTable) (s : String) : Option Name := (table.positions.lookup s).map Name.mk

/-- Puts a string at the end of the table. -/
def add (table : NameTable) (s : String) : NameTable where
  strings := table.strings.push s
  positions := (s, table.strings.size) :: table.positions

/-- Names a string for a holder who has not found it. Another holder may have named it since. -/
def settle (table : NameTable) (s : String) : Except InternError (Name × NameTable) :=
  match table.get? s with
  | some name => .ok (name, table)
  | none =>
    if table.strings.size ≤ Interner.maxIndex then .ok (⟨table.strings.size⟩, table.add s)
    else .error (.overflow table.strings.size)

/-- The name of a string, which joins the end of the table if it is new. A full table refuses it. -/
def tryIntern (table : NameTable) (s : String) : Except InternError (Name × NameTable) :=
  match table.get? s with
  | some name => .ok (name, table)
  | none => table.settle s

/-- While no other holder comes between, the second look at the table sees what the first saw. -/
theorem tryIntern_eq_settle (table : NameTable) (s : String) :
    table.tryIntern s = table.settle s := by
  unfold tryIntern
  cases h : table.get? s with
  | some name => simp only [settle, h]
  | none => rfl

/-- What can be asked of a table. -/
inductive Call where
  | intern (s : String)
  | tryIntern (s : String)
  | get (s : String)
  | lookup (name : Name)
  | size
  deriving DecidableEq

inductive Answer where
  | named (name : Name)
  | refused (error : InternError)
  | found (name? : Option Name)
  | spelled (s : String)
  | counted (size : Nat)
  deriving DecidableEq

/-- Answers a call. A call without an answer ends the program: that is a string to be named in a
full table, where the caller takes no refusal. -/
def answer? (table : NameTable) : Call → Option (Answer × NameTable)
  | .intern s =>
    match table.tryIntern s with
    | .ok (name, later) => some (.named name, later)
    | .error _ => none
  | .tryIntern s =>
    match table.tryIntern s with
    | .ok (name, later) => some (.named name, later)
    | .error error => some (.refused error, table)
  | .get s => some (.found (table.get? s), table)
  | .lookup name => some (.spelled (table.lookup name), table)
  | .size => some (.counted table.size, table)

end NameTable

/-- Tables, and for each handle the position of the table that it stands for. -/
structure NameTables where
  tables : Array NameTable
  handles : Array Nat

namespace NameTables

/-- One table with one handle. -/
def start : NameTables := ⟨#[.empty], #[0]⟩

/-- The table that a handle stands for. -/
def table? (shelf : NameTables) (handle : Nat) : Option NameTable := do
  shelf.tables[← shelf.handles[handle]?]?

/-- What the holders of tables do: they ask something of the table of a handle, clone a handle, or
start a table. -/
inductive Request where
  | call (handle : Nat) (call : NameTable.Call)
  | clone (handle : Nat)
  | new
  deriving DecidableEq

inductive Reply where
  | answer (answer : NameTable.Answer)
  /-- The handle that was made. -/
  | handle (handle : Nat)
  deriving DecidableEq

def reply? (shelf : NameTables) : Request → Option (Reply × NameTables)
  | .call handle call => do
    let position ← shelf.handles[handle]?
    let table ← shelf.tables[position]?
    let (answer, later) ← table.answer? call
    return (.answer answer, { shelf with tables := shelf.tables.setIfInBounds position later })
  | .clone handle => do
    let position ← shelf.handles[handle]?
    return (.handle shelf.handles.size, { shelf with handles := shelf.handles.push position })
  | .new =>
    some (.handle shelf.handles.size,
      { tables := shelf.tables.push .empty, handles := shelf.handles.push shelf.tables.size })

end NameTables

/-- Puts requests one after the other and keeps each with the reply to it. Where one has no reply,
there is no transcript. -/
def transcript? {State Request Reply : Type} (reply? : State → Request → Option (Reply × State)) :
    State → List Request → Option (List (Request × Reply) × State)
  | state, [] => some ([], state)
  | state, request :: rest => do
    let (reply, state) ← reply? state request
    let (replies, state) ← transcript? reply? state rest
    return ((request, reply) :: replies, state)

end Bindery
