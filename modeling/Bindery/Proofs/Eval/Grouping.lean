import Bindery.Proofs.Eval.Direct
import Bindery.Proofs.Eval.Renumbering
import Bindery.Proofs.Eval.Simulation
import Bindery.Proofs.Scope.Grouping

/-!
Parentheses and evaluation. A block around an expression is one more block that is run whenever the
expression is evaluated, and its value is that of the expression. A construction starts anew below
it, so between two constructions the block is run at most once at a time. Under twice the limit and
one more the changed program therefore comes to what the program comes to.
-/

namespace Bindery
namespace Lexical

def Entry.renumbered (move : NodeId → NodeId) : Entry → Entry
  | .value result => .value (result.renumbered move)
  | .structureDef definition => .structureDef (move definition)

/-- The same names, standing for what has been renumbered. -/
def Scope.renumbered (move : NodeId → NodeId) (scope : Scope) : Scope :=
  scope.map fun entry => (entry.1, entry.2.renumbered move)

theorem Scope.find?_renumbered (move : NodeId → NodeId) (scope : Scope) (name : Name) :
    (scope.renumbered move).find? name = (scope.find? name).map (.renumbered move) := by
  rw [Scope.find?, Scope.find?, Scope.renumbered, ← List.map_reverse]
  induction scope.reverse with
  | nil => rfl
  | cons entry rest ih =>
      obtain ⟨declared, entry⟩ := entry
      simp only [List.map_cons, List.lookup_cons, ih]
      cases name == declared <;> rfl

theorem Scope.renumbered_append (move : NodeId → NodeId) (scope added : Scope) :
    Scope.renumbered move (scope ++ added) = scope.renumbered move ++ added.renumbered move :=
  List.map_append

theorem Scope.renumbered_bind (move : NodeId → NodeId) (scope : Scope) (name : Name)
    (result : Value) : Scope.renumbered move (scope ++ [(name, .value result)]) =
      scope.renumbered move ++ [(name, .value (result.renumbered move))] :=
  Scope.renumbered_append move scope [(name, .value result)]

/-- What a second run comes to as long as a first one stays within its limits: the result that
stands for the first one's, or the same failure. -/
inductive Follows {α β : Type} (move : α → β) :
    Option (Except PlacedFault α × Nat) → Option (Except PlacedFault β × Nat) → Prop
  | ok {result built} : Follows move (some (.ok result, built)) (some (.ok (move result), built))
  | error {failure built} :
      Follows move (some (.error failure, built)) (some (.error failure, built))
  | overflow {failure limit built run'} : failure.fault = .stackOverflow limit →
      Follows move (some (.error failure, built)) run'
  | unfinished {run'} : Follows move none run'

namespace Run

variable {α β γ δ : Type} {move : α → β} {move' : γ → δ}

def Follows (move : α → β) (run : Run α) (run' : Run β) : Prop :=
  ∀ built, Lexical.Follows move (run built) (run' built)

namespace Follows

theorem pure (result : α) :
    Follows move (Pure.pure result : Run α) (Pure.pure (move result)) :=
  fun _ => .ok

theorem fail (fault : Fault) : Follows move (Run.fail fault) (Run.fail fault) := fun _ => .error

theorem ofExcept {result : Except Fault α} {result' : Except Fault β}
    (h : result' = result.map move) :
    Follows move (Run.ofExcept result) (Run.ofExcept result') := by
  subst h
  cases result with
  | ok result => exact .pure result
  | error fault => exact .fail fault

theorem bind {run : Run α} {run' : Run β} {next : α → Run γ} {next' : β → Run δ}
    (h : Follows move run run')
    (hnext : ∀ result, Follows move' (next result) (next' (move result))) :
    Follows move' (run >>= next) (run' >>= next') := by
  intro built
  rw [bind_apply, bind_apply]
  have hrun := h built
  generalize run built = outcome, run' built = outcome' at hrun
  cases hrun with
  | ok => exact hnext _ _
  | error => exact .error
  | overflow hfault => exact .overflow hfault
  | unfinished => exact .unfinished

theorem located {run : Run α} {run' : Run β} (h : Follows move run run') (span : Span) :
    Follows move (Run.located span run) (Run.located span run') := by
  intro built
  rw [located_apply, located_apply]
  have hrun := h built
  generalize run built = outcome, run' built = outcome' at hrun
  cases hrun with
  | ok => exact .ok
  | error => exact .error
  | overflow hfault => exact .overflow hfault
  | unfinished => exact .unfinished

end Follows

/-- A failure that has a place keeps it on its way through another node. -/
theorem located_bind_pure (outer span : Span) (run : Run α) :
    located outer (located span run >>= Pure.pure) = located span run := by
  funext built
  rw [bind_pure, located_apply, located_apply]
  generalize run built = outcome
  match outcome with
  | none => rfl
  | some (.ok _, _) => rfl
  | some (.error failure, _) =>
      obtain ⟨fault, place⟩ := failure
      cases place <;> rfl

end Run

/-- The second program is the first one with a block around the expression `inner`, and it may run
more than twice as many blocks and constructions at once. -/
structure Program.Grouped (inner : NodeId) (program program' : Program) : Prop where
  kind : ∀ id, Arena.MovedKind inner program.arena program'.arena (program.kind id)
    (program'.kind (inner.past id))
  span : ∀ id, (program'.arena.node (inner.past id)).span = (program.arena.node id).span
  outer : ∃ range, program'.kind inner.outer = .block range ∧
    program'.arena.list range = [inner]
  expression : Place.expression.admits (program.kind inner).shape = true
  below : ∀ id, ∀ child ∈ program.arena.placements (program.kind id), child.2.index < id.index
  interner : program'.interner = program.interner
  owner : program'.owner = program.owner
  limit : 2 * program.limit < program'.limit

namespace Program.Grouped

variable {inner : NodeId} {program program' : Program} (h : program.Grouped inner program')

/-- A node comes to the same in both programs, under all names that may be declared. -/
def Tracks (inner : NodeId) (recur recur' : Scope → NodeId → Run Value) (id : NodeId) : Prop :=
  ∀ scope : Scope, Run.Follows (.renumbered inner.past) (recur scope id)
    (recur' (scope.renumbered inner.past) (inner.listed id))

include h

theorem nameText_eq (name : Name) : program'.nameText name = program.nameText name := by
  rw [nameText, nameText, h.interner]

/-- The expression declares nothing, and neither does the block around it. -/
theorem declares_nothing : (∀ bind, program.kind inner ≠ .bind bind) ∧
    (∀ definition, program.kind inner ≠ .structureDef definition) ∧
    ∃ range, program'.kind (inner.listed inner) = .block range := by
  obtain ⟨range, hkind, -⟩ := h.outer
  exact ⟨NodeKind.ne_bind_of_expression h.expression,
    NodeKind.ne_structureDef_of_expression h.expression, range, by rw [NodeId.listed_self, hkind]⟩

theorem declared_listed (id : NodeId) (value : Value) :
    program'.declared (inner.listed id) (value.renumbered inner.past) =
      (program.declared id value).renumbered inner.past := by
  by_cases hinner : id = inner
  · obtain ⟨hbind, hstructure, range, hkind⟩ := h.declares_nothing
    rw [hinner]
    simp only [declared, hkind]
    rfl
  · have hkind := h.kind id
    rw [NodeId.listed_of_ne hinner]
    simp only [declared]
    generalize program.kind id = kind, program'.kind (inner.past id) = kind' at hkind
    cases hkind <;> rfl

theorem kept_listed (id : NodeId) (value : Value) (properties : Properties) :
    program'.kept (inner.listed id) (value.renumbered inner.past)
        (propertiesRenumbered inner.past properties) =
      propertiesRenumbered inner.past (program.kept id value properties) := by
  by_cases hinner : id = inner
  · obtain ⟨hbind, -, range, hkind⟩ := h.declares_nothing
    rw [hinner]
    simp only [kept, hkind]
  · have hkind := h.kind id
    rw [NodeId.listed_of_ne hinner]
    simp only [kept]
    generalize program.kind id = kind, program'.kind (inner.past id) = kind' at hkind
    cases hkind with
    | bind => exact (propertiesRenumbered_set properties _ value).symm
    | block | structureDef | property | memberName | reference | evaluate | number | text | boolean
    | binary | unary | conditional => rfl

theorem checkType (type : Option DeclaredType) (value : Value) :
    Run.Follows id (program.checkType type value)
      (program'.checkType type (value.renumbered inner.past)) := by
  cases type with
  | none => exact .pure ()
  | some type =>
      simp only [Program.checkType, Value.conforms_renumbered, Value.typeName_renumbered,
        h.interner]
      split
      · exact .pure ()
      · exact .fail _

/-- A limit that is twice as high lets in whatever the first program runs. -/
theorem entered {α β : Type} {move : α → β} {run : Run α} {run' : Run β} {live live' : Nat}
    (hlive : live' ≤ 2 * live + 1) (hrun : live < program.limit → Run.Follows move run run') :
    Run.Follows move (program.entered live run) (program'.entered live' run') := by
  have hlimit := h.limit
  simp only [Program.entered]
  by_cases hlt : live < program.limit
  · rw [if_pos hlt, if_pos (by omega)]
    exact hrun hlt
  · rw [if_neg hlt]
    exact fun built => .overflow rfl

theorem build (typeName : Name) (definition : NodeId) (properties : Properties) :
    Run.Follows (.renumbered inner.past) (program.build typeName definition properties)
      (program'.build typeName (inner.past definition)
        (propertiesRenumbered inner.past properties)) := by
  intro built
  have hinst : program'.build typeName (inner.past definition)
      (propertiesRenumbered inner.past properties) built =
        some (.ok (Value.renumbered inner.past
          (.inst ⟨program.owner, built⟩ typeName definition properties)), built + 1) := by
    rw [← h.owner]
    rfl
  rw [hinst]
  exact .ok

theorem evalReference (scope : Scope) (name : Name) :
    Run.Follows (.renumbered inner.past) (program.evalReference scope name)
      (program'.evalReference (scope.renumbered inner.past) name) := by
  simp only [Program.evalReference, Scope.find?_renumbered, h.nameText_eq]
  cases scope.find? name with
  | none => exact .fail _
  | some entry =>
      cases entry with
      | value result => exact .pure result
      | structureDef definition => exact .pure (Value.structureRef definition name)

theorem propertyOf (subject : Value) (member : NodeId) :
    program'.propertyOf (subject.renumbered inner.past) (inner.past member) =
      (program.propertyOf subject member).map (.renumbered inner.past) := by
  have hkind := h.kind member
  simp only [Program.propertyOf]
  generalize program.kind member = kind, program'.kind (inner.past member) = kind' at hkind
  cases hkind with
  | @memberName name =>
      cases subject with
      | inst identity typeName definition properties =>
          simp only [Value.renumbered, get?_propertiesRenumbered, h.nameText_eq]
          cases Properties.get? properties name <;> rfl
      | none | text | number | boolean | structureRef | error =>
          simp only [Value.renumbered, Value.typeName, h.interner]
          rfl
  | block | bind | structureDef | property | reference | evaluate | number | text | boolean
  | binary | unary | conditional => rfl

theorem bodyStatements_eq {body body' : Option NodeId} (hne : body ≠ some inner)
    (hbody : body' = body.map inner.past) (name : Name) (range range' : NodeRange) :
    program'.bodyStatements ⟨name, range', body'⟩ =
      (program.bodyStatements ⟨name, range, body⟩).map inner.listed := by
  subst hbody
  cases body with
  | none => rfl
  | some body =>
      have hkind := h.kind body
      simp only [bodyStatements, Option.map_some]
      generalize program.kind body = kind, program'.kind (inner.past body) = kind' at hkind
      cases hkind with
      | block hwindow => exact hwindow.list_eq
      | bind | structureDef | property | memberName | reference | evaluate | number | text
      | boolean | binary | unary | conditional => rfl

section Parts

variable {recur recur' : Scope → NodeId → Run Value}

theorem evalStatements {ids : List NodeId} (hrecur : ∀ id ∈ ids, Tracks inner recur recur' id)
    (scope : Scope) (last : Value) :
    Run.Follows (.renumbered inner.past) (program.evalStatements recur scope last ids)
      (program'.evalStatements recur' (scope.renumbered inner.past) (last.renumbered inner.past)
        (ids.map inner.listed)) := by
  induction ids generalizing scope last with
  | nil => exact .pure last
  | cons id rest ih =>
      obtain ⟨hfirst, hrest⟩ := List.forall_mem_cons.mp hrecur
      refine .bind (hfirst scope) fun value => ?_
      rw [h.declared_listed, ← Scope.renumbered_append]
      exact ih hrest _ value

omit h in
theorem evalEach {ids : List NodeId} (hrecur : ∀ id ∈ ids, Tracks inner recur recur' id)
    (scope : Scope) :
    Run.Follows (List.map (.renumbered inner.past)) (Program.evalEach recur scope ids)
      (Program.evalEach recur' (scope.renumbered inner.past) (ids.map inner.listed)) := by
  induction ids with
  | nil => exact .pure []
  | cons id rest ih =>
      obtain ⟨hfirst, hrest⟩ := List.forall_mem_cons.mp hrecur
      exact .bind (hfirst scope) fun value => .bind (ih hrest) fun values => .pure (value :: values)

theorem inputValue (scope : Scope) (structureName name : Name) {type : Option DeclaredType}
    {default? default?' : Option NodeId} (hdefault : default?' = default?.map inner.listed)
    (hrecur : ∀ default ∈ default?, Tracks inner recur recur' default) (arguments : List Value) :
    Run.Follows (.renumbered inner.past)
      (program.inputValue recur scope structureName ⟨name, type, default?⟩ arguments)
      (program'.inputValue recur' (scope.renumbered inner.past) structureName
        ⟨name, type, default?'⟩ (arguments.map (.renumbered inner.past))) := by
  cases arguments with
  | cons argument rest => exact .pure argument
  | nil =>
      subst hdefault
      cases default? with
      | some default => exact hrecur default rfl scope
      | none =>
          simp only [Program.inputValue, List.map_nil, Option.map_none, h.nameText_eq]
          exact .fail _

theorem evalInputs (hrecur : ∀ id, Tracks inner recur recur' id) (structureName : Name)
    (inputs : List NodeId) (scope : Scope) (arguments : List Value) (properties : Properties) :
    Run.Follows (Prod.map (.renumbered inner.past) (propertiesRenumbered inner.past))
      (program.evalInputs recur structureName scope inputs arguments properties)
      (program'.evalInputs recur' structureName (scope.renumbered inner.past)
        (inputs.map inner.listed) (arguments.map (.renumbered inner.past))
        (propertiesRenumbered inner.past properties)) := by
  induction inputs generalizing scope arguments properties with
  | nil => exact .pure (scope, properties)
  | cons input rest ih =>
      rw [List.map_cons]
      by_cases hinner : input = inner
      · obtain ⟨hbind, -, range, hkind⟩ := h.declares_nothing
        rw [hinner]
        simp only [Program.evalInputs, hkind]
        exact ih scope arguments properties
      · have hkind := h.kind input
        rw [NodeId.listed_of_ne hinner]
        simp only [Program.evalInputs]
        generalize program.kind input = kind, program'.kind (inner.past input) = kind' at hkind
        cases hkind with
        | @bind name type default? default?' hdefault =>
            refine .bind (h.inputValue scope structureName name hdefault
              (fun default _ => hrecur default) arguments) fun value => ?_
            refine .bind (h.checkType type value) fun _ => ?_
            rw [← propertiesRenumbered_set, ← List.map_tail, ← Scope.renumbered_bind]
            exact ih _ _ _
        | block | structureDef | property | memberName | reference | evaluate | number | text
        | boolean | binary | unary | conditional => exact ih scope arguments properties

theorem evalBody {ids : List NodeId} (hrecur : ∀ id, Tracks inner recur recur' id)
    (scope : Scope) (properties : Properties) :
    Run.Follows (propertiesRenumbered inner.past)
      (program.evalBody recur scope ids properties)
      (program'.evalBody recur' (scope.renumbered inner.past) (ids.map inner.listed)
        (propertiesRenumbered inner.past properties)) := by
  induction ids generalizing scope properties with
  | nil => exact .pure properties
  | cons id rest ih =>
      refine .bind (hrecur id scope) fun value => ?_
      rw [h.declared_listed, h.kept_listed, ← Scope.renumbered_append]
      exact ih _ _

theorem construct {live live' : Nat} (hlive : live' ≤ 2 * live + 1)
    (hrecur : live < program.limit → ∀ id, Tracks inner recur recur' id) (definition : NodeId)
    (arguments : List Value) :
    Run.Follows (.renumbered inner.past) (program.construct recur live definition arguments)
      (program'.construct recur' live' (inner.past definition)
        (arguments.map (.renumbered inner.past))) := by
  have hkind := h.kind definition
  simp only [Program.construct]
  generalize program.kind definition = kind, program'.kind (inner.past definition) = kind' at hkind
  cases hkind with
  | @structureDef name range range' body body' hwindow hne hbody =>
      simp only [hwindow.list_eq, List.length_map, h.nameText_eq,
        h.bodyStatements_eq hne hbody name range range']
      split
      · exact .fail _
      · refine h.entered hlive fun hlt => ?_
        refine .bind (h.evalInputs (hrecur hlt) name _ [] arguments []) fun supplied => ?_
        refine .bind (h.evalBody (hrecur hlt) supplied.1 supplied.2) fun properties => ?_
        exact h.build name definition properties
  | block | bind | property | memberName | reference | evaluate | number | text | boolean
  | binary | unary | conditional => exact .fail _

end Parts

/-- How many blocks and constructions may be run where `id` is evaluated. What the block around the
expression adds is made up for by the construction that leads back to it. -/
structure Affords (program : Program) (inner : NodeId) (live live' : Nat) (id : NodeId) :
    Prop where
  within : live ≤ program.limit
  le : live' ≤ 2 * live + 1
  ahead : inner.index ≤ id.index → live' ≤ 2 * live

theorem evalKind {recur recur' : (live : Nat) → Scope → NodeId → Run Value}
    (hrecur : ∀ {live live' id}, Affords program inner live live' id →
      Tracks inner (recur live) (recur' live') id)
    {live live' : Nat} {id : NodeId} (hwithin : live ≤ program.limit) (hle : live' ≤ 2 * live + 1)
    (hahead : inner.index < id.index → live' ≤ 2 * live) (scope : Scope) :
    Run.Follows (.renumbered inner.past) (program.evalKind recur live scope id)
      (program'.evalKind recur' live' (scope.renumbered inner.past) (inner.past id)) := by
  -- Both programs run one more inside, which makes up for another block around the expression.
  have hinside (hlt : live < program.limit) (child : NodeId) :
      Tracks inner (recur (live + 1)) (recur' (live' + 1)) child :=
    hrecur ⟨hlt, by omega, fun _ => by omega⟩
  have hchild {place : Place} {child : NodeId}
      (hplaced : (place, child) ∈ program.arena.placements (program.kind id)) :
      Tracks inner (recur live) (recur' live') child :=
    hrecur ⟨hwithin, hle, fun hindex =>
      hahead (Nat.lt_of_le_of_lt hindex (h.below id _ hplaced))⟩
  have hkind := h.kind id
  simp only [Program.evalKind]
  generalize program.kind id = kind, program'.kind (inner.past id) = kind' at hkind hchild
  cases hkind with
  | block hwindow =>
      simp only [hwindow.list_eq]
      exact h.entered hle fun hlt => h.evalStatements (fun child _ => hinside hlt child) scope .none
  | @bind name type default? default?' hdefault =>
      have hdefaults (default : NodeId) (hmem : default ∈ default?) :
          Tracks inner (recur live) (recur' live') default :=
        hchild (by
          rw [Option.mem_def.mp hmem]
          exact List.mem_singleton.mpr rfl)
      refine .bind (h.inputValue scope .empty name hdefault hdefaults []) fun value => ?_
      exact .bind (h.checkType type value) fun _ => .pure value
  | structureDef => exact .pure (Value.structureRef id _)
  | property hsubject hne hmember =>
      subst hsubject hmember
      refine .bind (hchild List.mem_cons_self scope) fun subject => ?_
      exact .ofExcept (h.propertyOf subject _)
  | memberName | reference => exact h.evalReference scope _
  | @evaluate callee _ range _ hcallee hwindow =>
      subst hcallee
      simp only [hwindow.list_eq]
      have hgiven (argument : NodeId) (hmem : argument ∈ program.arena.list range) :
          Tracks inner (recur live) (recur' live') argument :=
        hchild (List.mem_cons_of_mem _ (List.mem_map.mpr ⟨argument, hmem, rfl⟩))
      refine .bind (hchild List.mem_cons_self scope) fun called => ?_
      refine .bind (evalEach hgiven scope) fun arguments => ?_
      cases called with
      | structureRef definition name => exact h.construct hle hinside definition arguments
      | none | text | number | boolean | inst | error =>
          simp only [Value.renumbered, Value.typeName, h.interner]
          exact .fail _
  | number => exact .pure _
  | text =>
      simp only [h.nameText_eq]
      exact .pure _
  | boolean => exact .pure _
  | binary hleft hright =>
      subst hleft hright
      refine .bind (hchild List.mem_cons_self scope) fun left => ?_
      refine .bind (hchild (List.mem_cons_of_mem _ List.mem_cons_self) scope) fun right => ?_
      rw [h.interner]
      exact .ofExcept (BinaryOp.apply_renumbered (fun _ _ => NodeId.past_injective) _ _ left right)
  | unary hoperand =>
      subst hoperand
      refine .bind (hchild List.mem_cons_self scope) fun operand => ?_
      rw [h.interner]
      exact .ofExcept (UnaryOp.apply_renumbered _ _ operand)
  | conditional hcondition hyes hno =>
      subst hcondition hyes hno
      refine .bind (hchild List.mem_cons_self scope) fun outcome => ?_
      cases outcome with
      | boolean choice =>
          cases choice with
          | true => exact hchild (List.mem_cons_of_mem _ List.mem_cons_self) scope
          | false =>
              exact hchild
                (List.mem_cons_of_mem _ (List.mem_cons_of_mem _ List.mem_cons_self)) scope
      | none | text | number | structureRef | inst | error =>
          simp only [Value.renumbered, Value.typeName, h.interner]
          exact .fail _

/-- What stands for the expression is evaluated as the expression, one block further in. -/
theorem eval_outer {live : Nat} (hlive : live < program'.limit) (steps : Nat) (scope : Scope) :
    program'.eval (steps + 2) live scope inner.outer =
      program'.eval (steps + 1) (live + 1) scope inner := by
  obtain ⟨range, hkind, hlist⟩ := h.outer
  have hblock (recur : (live : Nat) → Scope → NodeId → Run Value) :
      program'.evalKind recur live scope inner.outer = recur (live + 1) scope inner >>= pure := by
    simp only [Program.evalKind, hkind, Program.entered, if_pos hlive, hlist,
      Program.evalStatements]
  rw [Program.eval, hblock, Program.eval]
  exact Run.located_bind_pure _ _ _

/-- Every node comes to the same in both programs. Where the first one evaluates the expression, the
second one evaluates the block and then the expression, so it nests at most twice as deeply. -/
theorem eval {steps steps' : Nat} (hsteps : 2 * steps ≤ steps') {live live' : Nat} {id : NodeId}
    (hafford : Affords program inner live live' id) :
    Tracks inner (program.eval steps live) (program'.eval steps' live') id := by
  induction steps generalizing steps' live live' id with
  | zero => exact fun scope built => .unfinished
  | succ steps ih =>
      obtain ⟨left, rfl⟩ := Nat.exists_eq_add_of_le' hsteps
      intro scope
      obtain ⟨hwithin, hle, hahead⟩ := hafford
      -- The node itself, however many evaluations are left for what is in it.
      have hnode (left' live' : Nat) (hleft : 2 * steps ≤ left') (hle : live' ≤ 2 * live + 1)
          (hahead : inner.index < id.index → live' ≤ 2 * live) :
          Run.Follows (.renumbered inner.past) (program.eval (steps + 1) live scope id)
            (program'.eval (left' + 1) live' (scope.renumbered inner.past) (inner.past id)) := by
        rw [Program.eval, Program.eval, h.span]
        exact (h.evalKind (fun hafford => ih hleft hafford) hwithin hle hahead scope).located _
      by_cases hinner : id = inner
      · subst hinner
        have hlive : live' < program'.limit := by
          have hlimit := h.limit
          have hlive := hahead (Nat.le_refl _)
          omega
        rw [NodeId.listed_self, show left + 2 * (steps + 1) = left + 2 * steps + 2 from by omega,
          h.eval_outer hlive]
        have hbelow := hnode (left + 2 * steps) (live' + 1) (Nat.le_add_left _ _)
          (Nat.succ_le_succ (hahead (Nat.le_refl _))) fun hlt => absurd hlt (Nat.lt_irrefl _)
        rw [NodeId.past_of_le (Nat.le_refl _)] at hbelow
        exact hbelow
      · rw [NodeId.listed_of_ne hinner]
        exact hnode (left + 2 * steps + 1) live' (by omega) hle fun hlt =>
          hahead (Nat.le_of_lt hlt)

end Program.Grouped
end Lexical

/-- Equal values up to the numbers of definitions in them, or errors of one kind at one place. -/
def Value.Corresponds (move : NodeId → NodeId) : Value → Value → Prop
  | .error e, other => ∃ backtrace, other = .error { fault := e.fault, span := e.span, backtrace }
  | result, other => other = result.renumbered move

namespace Source
open Lexical

variable {source source' : Source} {inner : NodeId}

/-- Where evaluation may nest as deeply as it needs to, evaluation by lexical scope gives an answer,
and it is that of the evaluator. -/
theorem exists_answer (hsource : source.WellFormed) (limits : Limits) (owner : Nat) {steps : Nat}
    (hsteps : source.stepBound (.fresh limits owner) ≤ steps) :
    ∃ answer built, (source.program (.fresh limits owner)).eval steps 0 [] source.root 0 =
        some (answer, built) ∧
      Answers answer (source.evaluateRoot (.fresh limits owner)).1 := by
  have hends := source.eval_ne_unfinished hsource
    (source.nesting_lt_stepBound source.root (.fresh limits owner))
  have hsimulates := source.simulates_root hsource (.fresh limits owner) steps rfl rfl
  rw [source.eval_of_le hsteps hends, show Context.built (.fresh limits owner) = 0 from rfl]
    at hsimulates
  rw [evaluateRoot, evaluate]
  cases hrun : (source.program (.fresh limits owner)).eval steps 0 [] source.root 0 with
  | none =>
      rw [hrun] at hsimulates
      exact absurd hsimulates hends
  | some outcome =>
      obtain ⟨answer, built⟩ := outcome
      refine ⟨answer, built, rfl, ?_⟩
      rw [hrun] at hsimulates
      cases answer with
      | ok result =>
          obtain ⟨value, frames, heq, hvalue, -⟩ := hsimulates
          rw [heq]
          exact hvalue
      | error failure =>
          obtain ⟨error, frames, heq, hfault, hspan⟩ := hsimulates
          refine ⟨error.backtrace, ?_⟩
          rw [heq, ← hfault, ← hspan]

theorem corresponds_of_follows {move : NodeId → NodeId} {answer answer' : Except PlacedFault Value}
    {built built' : Nat} {value value' : Value}
    (h : Follows (.renumbered move) (some (answer, built)) (some (answer', built')))
    (hanswer : Answers answer value) (hanswer' : Answers answer' value')
    (hover : ¬ Overflowed value) : value.Corresponds move value' := by
  cases h with
  | @ok result =>
      subst hanswer hanswer'
      cases value with
      | error error => exact ⟨error.backtrace, rfl⟩
      | none | text | number | boolean | structureRef | inst => rfl
  | error =>
      obtain ⟨backtrace, rfl⟩ := hanswer
      obtain ⟨backtrace', rfl⟩ := hanswer'
      exact ⟨backtrace', rfl⟩
  | overflow hfault =>
      obtain ⟨backtrace, rfl⟩ := hanswer
      exact absurd ⟨_, rfl, _, hfault⟩ hover

namespace GroupedAt

variable (h : source.GroupedAt source' inner)
include h

theorem program (hsource : source.WellFormed) {context context' : Context}
    (howner : context'.owner = context.owner)
    (hlimit : 2 * context.maxDepth < context'.maxDepth) :
    (source.program context).Grouped inner (source'.program context') where
  kind := h.kind
  span := h.span
  outer := h.outer
  expression := h.arena.expression
  below _ _ hchild := hsource.index_lt_of_placed hchild
  interner := h.interner
  owner := howner
  limit := hlimit

/-- The root is a block that lists others, and so it is not the expression in parentheses. -/
theorem root_listed (hsource' : source'.WellFormed) : source'.root = inner.listed source.root := by
  by_cases hroot : source.root = inner
  · have hmem : source'.root ∈ source'.children inner.outer := by
      rw [h.children_outer, h.root, hroot, NodeId.past_of_le (Nat.le_refl _)]
      exact List.mem_singleton.mpr rfl
    have hparent := hsource'.parent?_eq_some.mpr hmem
    rw [hsource'.parent?_root] at hparent
    cases hparent
  · rw [h.root, NodeId.listed_of_ne hroot]

theorem evaluateRoot (hsource : source.WellFormed) (hsource' : source'.WellFormed)
    {limits limits' : Limits} (hlimit : 2 * limits.maxDepth < limits'.maxDepth) (owner : Nat)
    (hover : ¬ Overflowed (source.evaluateRoot (.fresh limits owner)).1) :
    (source.evaluateRoot (.fresh limits owner)).1.Corresponds inner.past
      (source'.evaluateRoot (.fresh limits' owner)).1 := by
  have hprogram : (source.program (.fresh limits owner)).Grouped inner
      (source'.program (.fresh limits' owner)) := h.program hsource rfl hlimit
  obtain ⟨answer, built, hrun, hanswer⟩ :=
    source.exists_answer hsource limits owner (Nat.le_refl _)
  obtain ⟨answer', built', hrun', hanswer'⟩ :=
    source'.exists_answer hsource' limits' owner (Nat.le_max_right
      (2 * source.stepBound (.fresh limits owner)) (source'.stepBound (.fresh limits' owner)))
  have hafford : Program.Grouped.Affords (source.program (.fresh limits owner)) inner 0 0
      source.root := ⟨Nat.zero_le _, Nat.zero_le _, fun _ => Nat.le_refl _⟩
  have hfollows := hprogram.eval (Nat.le_max_left (2 * source.stepBound (.fresh limits owner))
    (source'.stepBound (.fresh limits' owner))) hafford [] 0
  rw [← h.root_listed hsource'] at hfollows
  rw [hrun, show Scope.renumbered inner.past [] = [] from rfl, hrun'] at hfollows
  exact corresponds_of_follows hfollows hanswer hanswer' hover

end GroupedAt

/-- A block around the expression `inner` changes nothing. At every node the same definitions are
visible, under the numbers that they have got, and every name refers to the same one. Evaluation
that stays within a limit comes to the same value, or to an error of the same kind at the same
place, under every limit that is more than twice as high. -/
structure MeansSame (source source' : Source) (inner : NodeId) : Prop where
  grouped : source.GroupedAt source' inner
  definitionsInScope : ∀ id, source'.definitionsInScope (inner.past id) =
    (source.definitionsInScope id).map (.moved inner.past)
  definitionOf? : ∀ id name, source'.definitionOf? (inner.past id) name =
    (source.definitionOf? id name).map (.moved inner.past)
  definitionNamed? : ∀ id s, source'.definitionNamed? (inner.past id) s =
    (source.definitionNamed? id s).map (.moved inner.past)
  evaluateRoot : ∀ (limits limits' : Limits) (owner : Nat),
    ¬ Overflowed (source.evaluateRoot (.fresh limits owner)).1 →
    2 * limits.maxDepth < limits'.maxDepth →
    (source.evaluateRoot (.fresh limits owner)).1.Corresponds inner.past
      (source'.evaluateRoot (.fresh limits' owner)).1

theorem GroupedAt.meansSame (h : source.GroupedAt source' inner) (hsource : source.WellFormed)
    (hsource' : source'.WellFormed) : source.MeansSame source' inner where
  grouped := h
  definitionsInScope := h.definitionsInScope_past hsource hsource'
  definitionOf? := h.definitionOf?_past hsource hsource'
  definitionNamed? := h.definitionNamed?_past hsource hsource'
  evaluateRoot _ _ owner hover hlimit := h.evaluateRoot hsource hsource' hlimit owner hover

/-- Parentheses around an expression of a program, wherever it stands, do not change what the
program means. -/
theorem meansSame_of_parentheses {name text : String} {interner : Interner} {source : Source}
    (h : (parse name text interner).1 = .ok source) {parent inner : NodeId} {place : Place}
    (hplaced : (place, inner) ∈ source.arena.placements (source.kind parent))
    (hplace : place.admits .plain = true)
    (hexpression : Place.expression.admits (source.kind inner).shape = true) :
    ∃ (context : Phrase.Context) (piece : Phrase),
      source = ofPhrase name text (context.plug piece) source.interner ∧
      context.number piece .empty = inner ∧
      ∀ (span : Span) (name' text' : String) (source' : Source),
        source' = ofPhrase name' text' (context.plug (.block span [piece])) source.interner →
        source.MeansSame source' inner := by
  obtain ⟨context, piece, heq, hnumber, hgrouped⟩ :=
    exists_groupedAt h hplaced hplace hexpression
  refine ⟨context, piece, heq, hnumber, fun span name' text' source' heq' => ?_⟩
  obtain ⟨hsource', hgrouped⟩ := hgrouped span name' text' source' heq'
  exact hgrouped.meansSame (wellFormed_of_parse h) hsource'

/-- Parentheses in the body of a structure, around the name of an input. -/
theorem meansSame_of_parentheses_in_body :
    ∃ source, (parse "<code>" "•P(a: \"x\") (b: a)\nP(\"y\").b" .empty).1 = .ok source ∧
      (Place.expression, ⟨2⟩) ∈ source.arena.placements (source.kind ⟨3⟩) ∧
      Place.expression.admits (source.kind ⟨2⟩).shape = true ∧
      ∃ (context : Phrase.Context) (piece : Phrase),
        source = ofPhrase "<code>" "•P(a: \"x\") (b: a)\nP(\"y\").b" (context.plug piece)
          source.interner ∧
        context.number piece .empty = ⟨2⟩ ∧
        ∀ (span : Span) (name' text' : String) (source' : Source),
          source' = ofPhrase name' text' (context.plug (.block span [piece])) source.interner →
          source.MeansSame source' ⟨2⟩ ∧
            ¬ Overflowed (source.evaluateRoot (.fresh {} 0)).1 ∧
            (source.evaluateRoot (.fresh {} 0)).1.Corresponds (NodeId.past ⟨2⟩)
              (source'.evaluateRoot (.fresh ⟨1025⟩ 0)).1 := by
  have hfacts : (parse "<code>" "•P(a: \"x\") (b: a)\nP(\"y\").b" .empty).1.toOption.bind
      (fun source => some (source.arena.placements (source.kind ⟨3⟩), (source.kind ⟨2⟩).shape,
        decide (Overflowed (source.evaluateRoot (.fresh {} 0)).1))) =
      some ([(.expression, ⟨2⟩)], .plain, false) := by decide +kernel
  obtain ⟨source, h, hread⟩ := exists_of_toOption_bind hfacts
  obtain ⟨hplacements, hread⟩ := Prod.mk.inj (Option.some.inj hread)
  obtain ⟨hshape, hover⟩ := Prod.mk.inj hread
  have hplaced : (Place.expression, ⟨2⟩) ∈ source.arena.placements (source.kind ⟨3⟩) := by
    rw [hplacements]
    exact List.mem_singleton.mpr rfl
  have hexpression : Place.expression.admits (source.kind ⟨2⟩).shape = true := by
    rw [hshape]
    rfl
  obtain ⟨context, piece, heq, hnumber, hsame⟩ :=
    meansSame_of_parentheses h hplaced rfl hexpression
  refine ⟨source, h, hplaced, hexpression, context, piece, heq, hnumber,
    fun span name' text' source' heq' => ?_⟩
  have hsame := hsame span name' text' source' heq'
  have hover' := of_decide_eq_false hover
  exact ⟨hsame, hover', hsame.evaluateRoot {} ⟨1025⟩ 0 hover' (by decide)⟩

end Source
end Bindery
