import Bindery.Proofs.Eval.Activation
import Bindery.Proofs.Eval.Twin
import Bindery.Proofs.Scope.Rules
import Mathlib.Data.List.Forall2

/-!
Two runs of one program go in lockstep. The first one finds every visible bind in its frames. The
second one finds it too, or it evaluates the bind on demand, which repeats an evaluation that the
first run has made before and is booked with it. So twin contexts lead to twin outcomes at every
node.
-/

namespace Bindery.Source

variable {source : Source}

/-- The node itself, if it is a bind. -/
def Binds (source : Source) (id key : NodeId) : Prop :=
  key = id ∧ ∃ bind, source.kind id = .bind bind

/-- The line tells of an evaluation of its bind, where the binds visible there are those of the
lines before it. -/
structure Justified (source : Source) (earlier : List Line) (line : Line) : Prop where
  admits : Place.statement.admits (source.kind line.bind).shape = true
  defines : ∃ bind, source.kind line.bind = .bind bind
  eval_eq : source.eval line.steps line.bind line.start = .value line.value line.finish
  visible : ∀ bind, .bind bind ∈ source.visible line.bind →
    ∃ old ∈ earlier, old.bind = bind ∧ line.start.lookup? bind = some old.value
  visible_of_mem : ∀ old ∈ earlier, .bind old.bind ∈ source.visible line.bind
  past : ∀ old ∈ earlier, old.finish.owner = line.start.owner ∧ old.finish.built ≤ line.start.built

/-- What the first run has evaluated, outside of all structures. Only a lax comparison has a ledger.
-/
structure Chronicle (source : Source) (comparison : Comparison) (ledger : List Line) : Prop where
  justified : ∀ earlier line later, ledger = earlier ++ line :: later →
    source.Justified earlier line
  outside : ∀ line ∈ ledger, ∀ top definition, source.kind top = .structureDef definition →
    ¬ source.Under top line.bind
  lax : ∀ line ∈ ledger, comparison.lax

/-- Nothing in the ledger is the node or stands under it. -/
def Clear (source : Source) (ledger : List Line) (id : NodeId) : Prop :=
  ∀ line ∈ ledger, line.bind ≠ id ∧ ¬ source.Under id line.bind

theorem Under.above {top id node : NodeId} (htop : id ∈ source.children top)
    (h : source.Under id node) : source.Under top node := by
  obtain ⟨child, between, hchild, hleads⟩ := h
  exact ⟨id, id :: between, htop, .down hchild hleads⟩

theorem clear_of_not_under {ledger : List Line} {top id : NodeId}
    (h : ∀ line ∈ ledger, ¬ source.Under top line.bind) (hid : id ∈ source.children top) :
    source.Clear ledger id := fun line hline =>
  ⟨fun heq => h line hline (heq ▸ .of_child hid), fun hunder => h line hline (hunder.above hid)⟩

theorem Clear.child {ledger : List Line} {top id : NodeId} (h : source.Clear ledger top)
    (hid : id ∈ source.children top) : source.Clear ledger id :=
  clear_of_not_under (fun line hline => (h line hline).2) hid

theorem Clear.not_booked {ledger : List Line} {id : NodeId} (h : source.Clear ledger id) :
    ¬ Booked ledger id := fun ⟨line, hline, heq⟩ => (h line hline).1 heq

theorem not_binds_of_ne_bind {id : NodeId} (h : ∀ bind, source.kind id ≠ .bind bind)
    (key : NodeId) : ¬ source.Binds id key := fun ⟨_, bind, hkind⟩ => h bind hkind

theorem WellFormed.not_binds_of_visible (hsource : source.WellFormed) {id bind : NodeId}
    (hvisible : .bind bind ∈ source.visible id) : ¬ source.Binds id bind := by
  rintro ⟨rfl, -⟩
  exact hsource.not_mem_visible _ hvisible

namespace Chronicle

variable {comparison : Comparison} {ledger earlier later : List Line} {line : Line}

theorem left (h : source.Chronicle comparison (earlier ++ later)) :
    source.Chronicle comparison earlier where
  justified front line back heq := h.justified front line (back ++ later) (by simp [heq])
  outside line hline := h.outside line (List.mem_append_left _ hline)
  lax line hline := h.lax line (List.mem_append_left _ hline)

/-- No bind is booked twice, and none inside another one. -/
theorem clear (hsource : source.WellFormed)
    (h : source.Chronicle comparison (earlier ++ line :: later)) :
    source.Clear earlier line.bind := by
  intro old hold
  have hvisible := (h.justified earlier line later rfl).visible_of_mem old hold
  have hapart := hsource.apart_of_mem_definitionsInScope (mem_definitionsInScope_iff.mpr hvisible)
  exact ⟨hapart.1, hapart.2.2⟩

theorem ne_of_later (hsource : source.WellFormed)
    (h : source.Chronicle comparison (earlier ++ line :: later)) {other : Line}
    (hother : other ∈ later) :
    other.bind ≠ line.bind ∧ ¬ Booked earlier other.bind ∧
      line.finish.owner = other.start.owner ∧ line.finish.built ≤ other.start.built := by
  obtain ⟨front, back, rfl⟩ := List.append_of_mem hother
  have hsplit : earlier ++ line :: (front ++ other :: back) =
      (earlier ++ line :: front) ++ other :: back := by simp
  have hclear : source.Clear (earlier ++ line :: front) other.bind :=
    (hsplit ▸ h : source.Chronicle comparison _).clear hsource
  have hmem : line ∈ earlier ++ line :: front := by simp
  refine ⟨fun heq => (hclear line hmem).1 heq.symm, fun ⟨old, hold, heq⟩ => ?_, ?_⟩
  · exact (hclear old (List.mem_append_left _ hold)).1 heq
  · exact (h.justified _ other back hsplit).past line hmem

end Chronicle

/-- Two evaluators of single nodes go in lockstep: from contexts that are abreast, and share what is
visible at a node, its evaluations are twins. A bind is found afterwards. -/
def Lockstep (source : Source) (comparison : Comparison) (recur recur' : NodeId → Step Value) :
    Prop :=
  ∀ ledger pairing context context' id, source.Chronicle comparison ledger →
    source.Clear ledger id → Place.statement.admits (source.kind id).shape = true →
    Abreast comparison ledger pairing context context' →
    Shares ledger pairing (source.visible id) context context' →
    Twin comparison source.interner ledger (source.Binds id) pairing context context'
      (fun pairing' value value' later later' => value.Alike pairing' value' ∧
        ∀ bind, source.kind id = .bind bind →
          later.lookup? id = some value ∧ later'.lookup? id = some value')
      (recur id context) (recur' id context')

namespace Lockstep

variable {comparison : Comparison} {recur recur' : NodeId → Step Value} {ledger : List Line}
  {own : NodeId → Prop} {pairing pairing' : Pairing} {context context' later later' : Context}
  {definitions : List Definition}

/-- What a statement or an input defines is shared once it has been evaluated. -/
theorem shares_statement {id : NodeId} {value value' : Value} (hclear : source.Clear ledger id)
    (hsource : source.WellFormed)
    (hshares : Shares ledger pairing (source.visible id) context context')
    (hprogress : Progress ledger (source.Binds id) pairing context context' pairing' later later')
    (hvalue : value.Alike pairing' value')
    (hlookup : ∀ bind, source.kind id = .bind bind →
      later.lookup? id = some value ∧ later'.lookup? id = some value') :
    Shares ledger pairing' (source.visible id ++ (source.definition? id).toList) later later' := by
  refine (hshares.progress hprogress fun bind => hsource.not_binds_of_visible).append
    fun bind hbind => ?_
  have hdefinition := Option.mem_toList.mp hbind
  obtain rfl := node_of_definition? hdefinition
  obtain ⟨declared, hkind⟩ := kind_of_definition? hdefinition
  obtain ⟨hfound, hfound'⟩ := hlookup declared hkind
  exact ⟨value, hfound, .inr ⟨hclear.not_booked, value', hfound', hvalue⟩⟩

section

variable (h : source.Lockstep comparison recur recur') (hsource : source.WellFormed)
  (hchronicle : source.Chronicle comparison ledger)
include h hsource hchronicle

theorem child {id node : NodeId} (hclear : source.Clear ledger id)
    (habreast : Abreast comparison ledger pairing context context')
    (hshares : Shares ledger pairing (source.visible id) context context')
    (hplaced : (Place.expression, node) ∈ source.arena.placements (source.kind id)) :
    Twin comparison source.interner ledger (fun _ => False) pairing context context'
      (fun pairing' value value' _ _ => value.Alike pairing' value')
      (recur node context) (recur' node context') := by
  have hadmits := hsource.admits_of_placed hplaced
  have hbind := NodeKind.ne_bind_of_expression hadmits
  rw [← hsource.visible_of_placed hplaced] at hshares
  exact (h ledger pairing context context' node hchronicle
    (hclear.child (WellFormed.mem_children_of_placed hplaced))
    (Place.statement_of_expression hadmits) habreast hshares).weaken
    (fun key hkey => not_binds_of_ne_bind hbind key hkey) fun _ hrelated => hrelated.1

theorem evalSequence {ids : List NodeId} {last last' : Value}
    (halong : source.Along .statement definitions ids)
    (hclear : ∀ id ∈ ids, source.Clear ledger id)
    (habreast : Abreast comparison ledger pairing context context')
    (hshares : Shares ledger pairing definitions context context')
    (hlast : last.Alike pairing last') :
    Twin comparison source.interner ledger (· ∈ ids) pairing context context'
      (fun pairing' value value' later later' => value.Alike pairing' value' ∧
        Shares ledger pairing' (definitions ++ ids.filterMap source.definition?) later later')
      (Source.evalSequence recur last ids context)
      (Source.evalSequence recur' last' ids context') := by
  induction ids generalizing definitions pairing context context' last last' with
  | nil => exact .pure habreast ⟨hlast, by simpa using hshares⟩
  | cons id rest ih =>
      rw [← halong.head] at hshares
      have hid := hclear id List.mem_cons_self
      refine (h ledger pairing context context' id hchronicle hid
        (halong.admits id List.mem_cons_self) habreast hshares).bind
        (fun key hkey => hkey.1 ▸ List.mem_cons_self) fun hprogress habreast' hrelated => ?_
      have hshares' := shares_statement hid hsource hshares hprogress hrelated.1 hrelated.2
      rw [halong.head] at hshares'
      rw [filterMap_cons_append]
      exact (ih halong.tail (fun id hid => hclear id (List.mem_cons_of_mem _ hid)) habreast'
        hshares' hrelated.1).weaken (fun _ => List.mem_cons_of_mem _) fun _ hrelated => hrelated

theorem evalEach {id : NodeId} {ids : List NodeId} (hclear : source.Clear ledger id)
    (hplaced : ∀ node ∈ ids, (Place.expression, node) ∈ source.arena.placements (source.kind id))
    (habreast : Abreast comparison ledger pairing context context')
    (hshares : Shares ledger pairing (source.visible id) context context') :
    Twin comparison source.interner ledger (fun _ => False) pairing context context'
      (fun pairing' values values' _ _ => List.Forall₂ (Value.Alike pairing') values values')
      (Source.evalEach recur ids context) (Source.evalEach recur' ids context') := by
  induction ids generalizing pairing context context' with
  | nil => exact .pure habreast .nil
  | cons node rest ih =>
      refine (h.child hsource hchronicle hclear habreast hshares
        (hplaced node List.mem_cons_self)).bind (fun _ h => h) fun hprogress habreast' hvalue => ?_
      have hshares' := hshares.progress hprogress fun _ _ h => h
      refine (ih (fun node hnode => hplaced node (List.mem_cons_of_mem _ hnode)) habreast'
        hshares').bind (fun _ h => h) fun hprogress' habreast'' hvalues => ?_
      exact .pure habreast'' (.cons (hvalue.mono hprogress'.le) hvalues)

omit h hsource hchronicle in
theorem checkType {type : Option DeclaredType} {value value' : Value}
    (habreast : Abreast comparison ledger pairing context context')
    (hvalue : value.Alike pairing value') :
    Twin comparison source.interner ledger (fun _ => False) pairing context context'
      (fun _ _ _ _ _ => True) (source.checkType type value context)
      (source.checkType type value' context') := by
  cases type with
  | none => exact .pure habreast trivial
  | some type =>
      simp only [Source.checkType, hvalue.conforms_eq, hvalue.typeName_eq]
      split
      · exact .pure habreast trivial
      · exact .fail _

theorem inputValue {structureName : Name} {input : NodeId} {bind : BindNode}
    {arguments arguments' : List Value} (hclear : source.Clear ledger input)
    (hkind : source.kind input = .bind bind)
    (habreast : Abreast comparison ledger pairing context context')
    (hshares : Shares ledger pairing (source.visible input) context context')
    (harguments : List.Forall₂ (Value.Alike pairing) arguments arguments') :
    Twin comparison source.interner ledger (fun _ => False) pairing context context'
      (fun pairing' value value' _ _ => value.Alike pairing' value')
      (source.inputValue recur structureName bind arguments context)
      (source.inputValue recur' structureName bind arguments' context') := by
  cases harguments with
  | cons hargument => exact .pure habreast hargument
  | nil =>
      simp only [Source.inputValue]
      cases hvalue : bind.value with
      | none => exact .fail _
      | some node =>
          exact h.child hsource hchronicle hclear habreast hshares
            (by simp [hkind, Arena.placements, hvalue])

theorem supplyInputs {structureName : Name} {inputs : List NodeId}
    {arguments arguments' : List Value} {properties properties' : Properties}
    (halong : source.Along .input definitions inputs)
    (hclear : ∀ id ∈ inputs, source.Clear ledger id)
    (habreast : Abreast comparison ledger pairing context context')
    (hshares : Shares ledger pairing definitions context context')
    (harguments : List.Forall₂ (Value.Alike pairing) arguments arguments')
    (hproperties : PropertiesAlike pairing properties properties') :
    Twin comparison source.interner ledger (· ∈ inputs) pairing context context'
      (fun pairing' properties properties' later later' =>
        PropertiesAlike pairing' properties properties' ∧
          Shares ledger pairing' (definitions ++ inputs.filterMap source.definition?) later later')
      (source.supplyInputs recur structureName inputs arguments properties context)
      (source.supplyInputs recur' structureName inputs arguments' properties' context') := by
  induction inputs generalizing definitions pairing context context' arguments arguments' properties
    properties' with
  | nil => exact .pure habreast ⟨hproperties, by simpa using hshares⟩
  | cons input rest ih =>
      have hadmits := halong.admits input List.mem_cons_self
      have hinput := hclear input List.mem_cons_self
      rw [← halong.head] at hshares
      cases hkind : source.kind input with
      | bind bind =>
          have hbind : source.bind? input = some bind := by simp only [bind?, hkind]
          rw [supplyInputs_cons hbind, supplyInputs_cons hbind]
          refine (h.inputValue hsource hchronicle hinput hkind habreast hshares harguments).bind
            (fun _ h => h.elim) fun {_ value value' _ _} hprogress habreast hvalue => ?_
          refine (checkType habreast hvalue).bind (fun _ h => h.elim)
            fun hprogress' habreast _ => ?_
          have hprogress := hprogress.trans hprogress'
          have hvalue := hvalue.mono hprogress'.le
          refine (Twin.record (source.Binds input) habreast ⟨rfl, bind, hkind⟩
            hinput.not_booked).bind (fun key hkey => hkey.1 ▸ List.mem_cons_self)
            fun hprogress' habreast hrelated => ?_
          obtain ⟨hfound, hfound', -⟩ := hrelated
          have hprogress := (hprogress.mono fun _ h => h.elim).trans hprogress'
          have hvalue := hvalue.mono hprogress'.le
          have hshares := shares_statement hinput hsource hshares hprogress hvalue
            fun _ _ => ⟨hfound, hfound'⟩
          rw [halong.head] at hshares
          refine (ih halong.tail (fun id hid => hclear id (List.mem_cons_of_mem _ hid)) habreast
            hshares ?_ ?_).weaken (fun _ => List.mem_cons_of_mem _) fun _ hrelated =>
              ⟨hrelated.1, ?_⟩
          · cases harguments with
            | nil => exact .nil
            | cons _ hrest => exact hrest.imp fun _ _ => Value.Alike.mono hprogress.le
          · exact (hproperties.mono hprogress.le).set hvalue bind.name
          · rw [filterMap_cons_append]
            exact hrelated.2
      | block | structureDef | property | memberName | reference | evaluate | number | text
      | boolean | binary | unary | conditional => rw [hkind] at hadmits; cases hadmits

theorem runBody {ids : List NodeId} {properties properties' : Properties}
    (halong : source.Along .statement definitions ids)
    (hclear : ∀ id ∈ ids, source.Clear ledger id)
    (habreast : Abreast comparison ledger pairing context context')
    (hshares : Shares ledger pairing definitions context context')
    (hproperties : PropertiesAlike pairing properties properties') :
    Twin comparison source.interner ledger (· ∈ ids) pairing context context'
      (fun pairing' properties properties' later later' =>
        PropertiesAlike pairing' properties properties' ∧
          Shares ledger pairing' (definitions ++ ids.filterMap source.definition?) later later')
      (source.runBody recur ids properties context)
      (source.runBody recur' ids properties' context') := by
  induction ids generalizing definitions pairing context context' properties properties' with
  | nil => exact .pure habreast ⟨hproperties, by simpa using hshares⟩
  | cons id rest ih =>
      rw [← halong.head] at hshares
      have hid := hclear id List.mem_cons_self
      simp only [Source.runBody]
      refine (h ledger pairing context context' id hchronicle hid
        (halong.admits id List.mem_cons_self) habreast hshares).bind
        (fun key hkey => hkey.1 ▸ List.mem_cons_self) fun hprogress habreast' hrelated => ?_
      have hshares' := shares_statement hid hsource hshares hprogress hrelated.1 hrelated.2
      rw [halong.head] at hshares'
      have hproperties' := hproperties.mono hprogress.le
      rw [filterMap_cons_append]
      cases source.bind? id with
      | none =>
          exact (ih halong.tail (fun id hid => hclear id (List.mem_cons_of_mem _ hid)) habreast'
            hshares' hproperties').weaken (fun _ => List.mem_cons_of_mem _) fun _ h => h
      | some bind =>
          exact (ih halong.tail (fun id hid => hclear id (List.mem_cons_of_mem _ hid)) habreast'
            hshares' (hproperties'.set hrelated.1 bind.name)).weaken
            (fun _ => List.mem_cons_of_mem _) fun _ h => h

theorem construct {structureId : NodeId} {values values' : List Value} {callSpan : Span}
    (habreast : Abreast comparison ledger pairing context context')
    (hvalues : List.Forall₂ (Value.Alike pairing) values values') :
    Twin comparison source.interner ledger own pairing context context'
      (fun pairing' value value' _ _ => value.Alike pairing' value' ∧
        ∀ definition, source.structure? structureId = some definition →
          ∃ identity properties, value = .inst identity definition.name structureId properties)
      (source.construct recur structureId values callSpan context)
      (source.construct recur' structureId values' callSpan context') := by
  simp only [Source.construct, ← hvalues.length_eq]
  cases hstructure : source.structure? structureId with
  | none => exact .fail _
  | some definition =>
      have hkind := structure?_eq_some.mp hstructure
      have hclear (node : NodeId) (hnode : node ∈ source.children structureId) :
          source.Clear ledger node :=
        clear_of_not_under (fun line hline => hchronicle.outside line hline _ _ hkind) hnode
      simp only
      split
      · exact .fail _
      · refine .inFrame (fun _ => True) habreast fun inner inner' henter henter' habreast => ?_
        refine (h.supplyInputs hsource hchronicle (hsource.along_inputs hkind)
          (fun node hnode => hclear node ?_) habreast (fun _ hnil => absurd hnil List.not_mem_nil)
          hvalues (show PropertiesAlike _ [] [] from rfl)).bind (fun _ _ => trivial)
            fun hprogress habreast hrelated => ?_
        · rw [WellFormed.children_of_structureDef hkind]
          exact List.mem_append_left _ hnode
        refine (h.runBody hsource hchronicle (hsource.along_body hkind) (fun node hnode => ?_)
          habreast hrelated.2 hrelated.1).bind (fun _ _ => trivial)
            fun hprogress habreast hproperties =>
              (Twin.build habreast hproperties.1).weaken (fun _ h => h) fun _ hrelated =>
                ⟨hrelated.1, fun definition' heq => ?_⟩
        · obtain ⟨body, statements, hbody, hblock, hstatements⟩ := exists_body hnode
          have hchild := WellFormed.mem_children_of_placed (placed_body hkind hbody)
          refine (hclear body hchild).child ?_
          rw [WellFormed.children_of_block hblock, ← hstatements]
          exact hnode
        · cases heq
          exact hrelated.2

theorem evalEvaluate {id callee : NodeId} {arguments : NodeRange} (hclear : source.Clear ledger id)
    (hkind : source.kind id = .evaluate callee arguments)
    (habreast : Abreast comparison ledger pairing context context')
    (hshares : Shares ledger pairing (source.visible id) context context') :
    Twin comparison source.interner ledger own pairing context context'
      (fun pairing' value value' _ _ => value.Alike pairing' value')
      (source.evalEvaluate recur id callee arguments context)
      (source.evalEvaluate recur' id callee arguments context') := by
  have hcallee : (Place.expression, callee) ∈ source.arena.placements (source.kind id) := by
    simp [hkind, Arena.placements]
  have hplaced (node : NodeId) (hnode : node ∈ source.list arguments) :
      (Place.expression, node) ∈ source.arena.placements (source.kind id) :=
    WellFormed.placed_argument hkind hnode
  refine (h.child hsource hchronicle hclear habreast hshares hcallee).bind (fun _ h => h.elim)
    fun {_ called called' _ _} hprogress habreast hcalled => ?_
  have hshares := hshares.progress hprogress fun _ _ h => h
  refine (h.evalEach hsource hchronicle hclear hplaced habreast hshares).bind (fun _ h => h.elim)
    fun hprogress' habreast hvalues => ?_
  have hcalled := hcalled.mono hprogress'.le
  cases called with
  | structureRef structureId name =>
      cases hcalled
      exact (h.construct hsource hchronicle habreast hvalues).weaken (fun _ h => h)
        fun _ hrelated => hrelated.1
  | inst =>
      obtain ⟨_, _, rfl, -, -⟩ := hcalled
      exact .fail _
  | none | text | number | boolean | error =>
      cases hcalled
      exact .fail _

theorem evalBlock {id : NodeId} {statements : NodeRange} (hclear : source.Clear ledger id)
    (hkind : source.kind id = .block statements)
    (habreast : Abreast comparison ledger pairing context context')
    (hshares : Shares ledger pairing (source.visible id) context context') :
    Twin comparison source.interner ledger own pairing context context'
      (fun pairing' value value' _ _ => value.Alike pairing' value')
      (source.evalBlock recur id statements context)
      (source.evalBlock recur' id statements context') := by
  refine .inFrame (· ∈ source.list statements) habreast
    fun inner inner' henter henter' habreast => ?_
  refine (h.evalSequence hsource hchronicle (hsource.along_block hkind) (fun node hnode => ?_)
    habreast (hshares.enter henter henter')
    (show Value.Alike _ .none .none from rfl)).weaken (fun _ h => h) fun _ hrelated => hrelated.1
  refine hclear.child ?_
  rw [WellFormed.children_of_block hkind]
  exact hnode

theorem evalBind {id : NodeId} {bind : BindNode} (hclear : source.Clear ledger id)
    (hkind : source.kind id = .bind bind)
    (habreast : Abreast comparison ledger pairing context context')
    (hshares : Shares ledger pairing (source.visible id) context context') :
    Twin comparison source.interner ledger (source.Binds id) pairing context context'
      (fun pairing' value value' later later' => value.Alike pairing' value' ∧
        later.lookup? id = some value ∧ later'.lookup? id = some value')
      (source.evalBind recur id bind context) (source.evalBind recur' id bind context') := by
  simp only [Source.evalBind]
  cases hvalue : bind.value with
  | none => exact .fail _
  | some node =>
      refine (h.child hsource hchronicle hclear habreast hshares
        (by simp [hkind, Arena.placements, hvalue])).bind (fun _ h => h.elim)
        fun hprogress habreast hvalue => ?_
      refine (checkType habreast hvalue).bind (fun _ h => h.elim) fun hprogress' habreast _ => ?_
      have hvalue := hvalue.mono hprogress'.le
      refine (Twin.record (source.Binds id) habreast ⟨rfl, bind, hkind⟩
        hclear.not_booked).bind (fun _ h => h) fun hprogress' habreast hrelated => ?_
      exact .pure habreast ⟨hvalue.mono hprogress'.le, hrelated.1, hrelated.2.1⟩

end

section

variable (hsource : source.WellFormed) {earlier after : List Line} {line : Line}
  (hchronicle : source.Chronicle comparison (earlier ++ line :: after))
include hsource hchronicle

omit hsource in
/-- Before the evaluation that a line tells of, the first run was abreast with the second one, as
far as the lines before it go. -/
theorem abreast_start (habreast : Abreast comparison (earlier ++ line :: after) pairing context
    context') :
    Abreast comparison earlier (pairing.before line.start) line.start context' ∧
      Shares earlier (pairing.before line.start) (source.visible line.bind) line.start
        context' := by
  have hjustified := hchronicle.justified earlier line after rfl
  have hmem (old : Line) (hold : old ∈ earlier) : old ∈ earlier ++ line :: after :=
    List.mem_append_left _ hold
  refine ⟨⟨⟨fun hi hj => habreast.oneToOne.right_unique hi.1 hj.1,
    fun hi hj => habreast.oneToOne.left_unique hi.1 hj.1⟩,
    fun i i' hi => ⟨hi.2, (habreast.known i i' hi.1).2⟩,
    .inl (hchronicle.lax line (by simp)), fun old hold => ?_, hjustified.past⟩,
    fun bind hbind => ?_⟩
  · have hpast := hjustified.past old hold
    cases habreast.settled old (hmem old hold) with
    | due hframes hnone hmissed =>
        exact .due hframes hnone fun i i' hi => hmissed i i' hi.1
    | paid hkeep hframes halike =>
        refine .paid hkeep hframes (halike.mono fun i i' hi => ⟨⟨hi.1, fun howner => ?_⟩, hi.2⟩)
        exact Nat.lt_of_lt_of_le (hi.2 (howner.trans hpast.1.symm)) hpast.2
  · obtain ⟨old, hold, rfl, hvalue⟩ := hjustified.visible bind hbind
    exact ⟨old.value, hvalue, .inl ⟨old, hold, rfl, rfl⟩⟩

/-- The second run pays for a line: it evaluates the bind as the first run has done, and keeps the
value. -/
theorem pay {pairing' : Pairing} {later' : Context} {value' : Value}
    (habreast : Abreast comparison (earlier ++ line :: after) pairing context context')
    (hdue : ∀ frame ∈ context'.frames, frame.lookup line.bind = none)
    (hmissed : ∀ i i', pairing i i' → ¬ line.Creates i)
    (hprogress : Progress earlier (source.Binds line.bind) (pairing.before line.start) line.start
      context' pairing' line.finish later')
    (habreast' : Abreast comparison earlier pairing' line.finish later')
    (halike : line.value.Alike pairing' value') (hfound : later'.lookup? line.bind = some value') :
    Progress (earlier ++ line :: after) (fun _ => False) pairing context context'
        (fun i i' => pairing i i' ∨ pairing' i i') context (later'.keep line.bind value') ∧
      Abreast comparison (earlier ++ line :: after) (fun i i' => pairing i i' ∨ pairing' i i')
        context (later'.keep line.bind value') := by
  have hmem : line ∈ earlier ++ line :: after := by simp
  have hpast := habreast.past line hmem
  have hfinish {i : Identity} (hi : line.finish.Knows i) : context.Knows i := fun howner =>
    Nat.lt_of_lt_of_le (hi (howner.trans hpast.1.symm)) hpast.2
  have hkeep : later'.Grows (fun _ => False) (· = line.bind) (later'.keep line.bind value') :=
    .keep rfl
  have hright : context'.Grows (fun _ => False) (fun key => key = line.bind ∨ Booked earlier key)
      (later'.keep line.bind value') :=
    (hprogress.right.mono (fun key hkey => .inr (.inl hkey.1)) fun key hkey => .inr hkey).trans
      (hkeep.mono (fun _ h => .inl h) fun key hkey => .inl hkey)
  have hpair {i i' : Identity} (hi : pairing' i i') : pairing i i' ∨ ¬ context'.Knows i' :=
    (hprogress.fresh i i' hi).imp And.left id
  -- A pair of the first run so far and a new one meet only in what the evaluation began with.
  have hold {i i' : Identity} (hi : pairing i i') (hi' : line.finish.Knows i) : pairing' i i' :=
    hprogress.le i i' ⟨hi, Classical.byContradiction fun hstart => hmissed i i' hi ⟨hi', hstart⟩⟩
  have hpaired : Pairing.OneToOne fun i i' => pairing i i' ∨ pairing' i i' :=
    habreast.oneToOne.or habreast'.oneToOne
      (fun hi hi' => hold hi (habreast'.known _ _ hi').1)
      fun hi hi' => (hpair hi').resolve_right fun hnew => hnew (habreast.known _ _ hi).2
  refine ⟨⟨fun _ _ hi => .inl hi, fun i i' hi => hi.elim .inl hpair, .refl context,
    hright.mono (fun _ h => .inl h) fun key hkey => ?_⟩, hpaired, fun i i' hi => ?_, ?_,
    fun other hother => ?_, habreast.past⟩
  · rcases hkey with rfl | ⟨old, hmem', heq⟩
    · exact ⟨line, hmem, rfl⟩
    · exact ⟨old, List.mem_append_left _ hmem', heq⟩
  · rcases hi with hi | hi
    · exact ⟨(habreast.known i i' hi).1, (habreast.known i i' hi).2.of_grows hright⟩
    · exact ⟨hfinish (habreast'.known i i' hi).1, (habreast'.known i i' hi).2.of_grows hkeep⟩
  · rw [hright.callStack]
    exact habreast.callStacks
  · rcases List.mem_append.mp hother with hother | hother
    · -- Lines before this one stand as the evaluation has left them.
      have hne : other.bind ≠ line.bind := ((hchronicle.clear hsource) other hother).1
      refine (habreast'.settled other hother).of_grows hkeep (fun h => h) hne
        (fun _ _ hi => .inr hi) fun i i' hi hnot hcreates => ?_
      have hother' := (hchronicle.justified earlier line after rfl).past other hother
      rcases hi with hi | hi
      · refine hnot (hprogress.le i i' ⟨hi, fun howner => ?_⟩)
        exact Nat.lt_of_lt_of_le (hcreates.1 (howner.trans hother'.1.symm)) hother'.2
      · exact hnot hi
    · rcases List.mem_cons.mp hother with rfl | hother
      · refine .paid (show _ = some value' from ?_)
          (fun frame hframe value => hprogress.right.eq_of_lookup? hdue hfound hframe)
          (halike.mono fun i i' hi => ⟨.inr hi, (habreast'.known i i' hi).1⟩)
        simp only [Context.keep, List.lookup_cons, beq_self_eq_true]
      · -- Later lines are not touched.
        obtain ⟨hne, hbooked, howner', hle⟩ := hchronicle.ne_of_later hsource hother
        refine (habreast.settled other (by simp [hother])).of_grows hright (fun h => h)
          (fun h => h.elim hne hbooked) (fun _ _ hi => .inl hi) fun i i' hi hnot hcreates => ?_
        rcases hi with hi | hi
        · exact hnot hi
        · refine hcreates.2 fun howner => ?_
          exact Nat.lt_of_lt_of_le ((habreast'.known i i' hi).1 (howner.trans howner'.symm)) hle

end

section

variable (hall : ∀ steps, source.Lockstep comparison (source.eval steps) recur')
  (hsource : source.WellFormed) (hchronicle : source.Chronicle comparison ledger)
include hall hsource hchronicle

/-- Where the second run evaluates a bind on demand, it comes to a value alike to that which the
first run has found before. -/
theorem demand {line : Line} (hline : line ∈ ledger)
    (habreast : Abreast comparison ledger pairing context context')
    (hdue : ∀ frame ∈ context'.frames, frame.lookup line.bind = none)
    (hmissed : ∀ i i', pairing i i' → ¬ line.Creates i) :
    Twin comparison source.interner ledger (fun _ => False) pairing context context'
      (fun pairing' value value' _ _ => value.Alike pairing' value')
      (.value line.value context) (Source.demand recur' line.bind context') := by
  obtain ⟨earlier, after, rfl⟩ := List.append_of_mem hline
  have hjustified := hchronicle.justified earlier line after rfl
  obtain ⟨bind, hkind⟩ := hjustified.defines
  obtain ⟨hstart, hshares⟩ := abreast_start hchronicle habreast
  have htwin := hall line.steps earlier (pairing.before line.start) line.start context' line.bind
    hchronicle.left (hchronicle.clear hsource) hjustified.admits hstart hshares
  rw [hjustified.eval_eq] at htwin
  rw [Source.demand, Step.bind_apply]
  generalize recur' line.bind context' = outcome' at htwin ⊢
  cases htwin with
  | value hprogress habreast' hrelated =>
      obtain ⟨halike, hlookup⟩ := hrelated
      obtain ⟨hprogress', habreast''⟩ := pay hsource hchronicle habreast hdue hmissed hprogress
        habreast' halike (hlookup bind hkind).2
      exact .value hprogress' habreast'' (halike.mono fun _ _ hi => .inr hi)
  | unfinishedRight => exact .unfinishedRight
  | overflowRight hlax hover => exact .overflowRight hlax hover

theorem evalReference {id : NodeId} {name : Name}
    (habreast : Abreast comparison ledger pairing context context')
    (hshares : Shares ledger pairing (source.visible id) context context') :
    Twin comparison source.interner ledger (fun _ => False) pairing context context'
      (fun pairing' value value' _ _ => value.Alike pairing' value')
      (source.evalReference recur id name context)
      (source.evalReference recur' id name context') := by
  simp only [Source.evalReference]
  cases hdefinition : source.definitionOf? id name with
  | none => exact .fail _
  | some definition =>
      cases definition with
      | structureDef structureId => exact .pure habreast rfl
      | bind bind =>
          obtain ⟨value, hvalue, hsecond⟩ :=
            hshares bind (mem_visible_of_definitionOf? hdefinition).1
          simp only [Step.bind_apply, Step.lookup?, hvalue]
          rcases hsecond with ⟨line, hline, rfl, rfl⟩ | ⟨-, value', hvalue', halike⟩
          · have hsettled := habreast.settled line hline
            rcases hsettled.lookup?_cases with hnone | ⟨value', hvalue', halike⟩
            · cases hsettled with
              | due hframes hnone' hmissed =>
                  rw [hnone]
                  exact demand hall hsource hchronicle hline habreast hframes hmissed
              | paid hkeep =>
                  rw [Context.lookup?, hkeep] at hnone
                  simp at hnone
            · rw [hvalue']
              exact .value .refl habreast halike
          · rw [hvalue']
            exact .value .refl habreast halike

variable (h : source.Lockstep comparison recur recur')
include h

theorem evalKind_of_not_bind {id : NodeId} (hclear : source.Clear ledger id)
    (hplace : Place.statement.admits (source.kind id).shape = true)
    (hbind : ∀ bind, source.kind id ≠ .bind bind)
    (habreast : Abreast comparison ledger pairing context context')
    (hshares : Shares ledger pairing (source.visible id) context context') :
    Twin comparison source.interner ledger (fun _ => False) pairing context context'
      (fun pairing' value value' _ _ => value.Alike pairing' value')
      (source.evalKind recur id context) (source.evalKind recur' id context') := by
  have hchild {pairing : Pairing} {context context' : Context} {node : NodeId}
      (habreast : Abreast comparison ledger pairing context context')
      (hshares : Shares ledger pairing (source.visible id) context context')
      (hplaced : (Place.expression, node) ∈ source.arena.placements (source.kind id)) :=
    h.child hsource hchronicle hclear habreast hshares hplaced
  simp only [Source.evalKind]
  cases hkind : source.kind id with
  | bind bind => exact absurd hkind (hbind bind)
  | memberName name =>
      rw [hkind] at hplace
      cases hplace
  | block statements => exact h.evalBlock hsource hchronicle hclear hkind habreast hshares
  | evaluate callee arguments =>
      exact h.evalEvaluate hsource hchronicle hclear hkind habreast hshares
  | reference name => exact evalReference hall hsource hchronicle habreast hshares
  | structureDef definition => exact .pure habreast rfl
  | number bits | boolean value | text content => exact .pure habreast rfl
  | property subject member =>
      refine (hchild habreast hshares (by simp [hkind, Arena.placements])).bind (fun _ h => h)
        fun _ habreast hvalue => ?_
      exact .ofExcept habreast (propertyOf_alike hvalue member) fun _ _ h => h
  | unary op operand =>
      refine (hchild habreast hshares (by simp [hkind, Arena.placements])).bind (fun _ h => h)
        fun _ habreast hvalue => ?_
      exact .ofExcept habreast (hvalue.unary source.interner op) fun _ _ h => h
  | binary op left right =>
      refine (hchild habreast hshares (by simp [hkind, Arena.placements])).bind (fun _ h => h)
        fun hprogress habreast hleft => ?_
      have hshares := hshares.progress hprogress fun _ _ h => h
      refine (hchild habreast hshares (by simp [hkind, Arena.placements])).bind (fun _ h => h)
        fun hprogress' habreast hright => ?_
      have hleft := hleft.mono hprogress'.le
      exact .ofExcept habreast (hleft.binary habreast.oneToOne hright source.interner op)
        fun _ _ h => h
  | conditional condition yes no =>
      refine (hchild habreast hshares (by simp [hkind, Arena.placements])).bind (fun _ h => h)
        fun {_ value value' _ _} hprogress habreast hvalue => ?_
      have hshares := hshares.progress hprogress fun _ _ h => h
      cases value with
      | boolean choice =>
          cases hvalue
          cases choice with
          | true => exact hchild habreast hshares (by simp [hkind, Arena.placements])
          | false => exact hchild habreast hshares (by simp [hkind, Arena.placements])
      | inst =>
          obtain ⟨_, _, rfl, -, -⟩ := hvalue
          exact .fail _
      | none | text | number | structureRef | error =>
          cases hvalue
          exact .fail _

theorem evalKind {id : NodeId} (hclear : source.Clear ledger id)
    (hplace : Place.statement.admits (source.kind id).shape = true)
    (habreast : Abreast comparison ledger pairing context context')
    (hshares : Shares ledger pairing (source.visible id) context context') :
    Twin comparison source.interner ledger (source.Binds id) pairing context context'
      (fun pairing' value value' later later' => value.Alike pairing' value' ∧
        ∀ bind, source.kind id = .bind bind →
          later.lookup? id = some value ∧ later'.lookup? id = some value')
      (source.evalKind recur id context) (source.evalKind recur' id context') := by
  by_cases hbind : ∃ bind, source.kind id = .bind bind
  · obtain ⟨bind, hkind⟩ := hbind
    have hsecond := h.evalBind hsource hchronicle hclear hkind habreast hshares
    simp only [Source.evalKind, hkind]
    exact hsecond.weaken (fun _ h => h) fun _ hrelated => ⟨hrelated.1, fun _ _ => hrelated.2⟩
  · have hne := not_exists.mp hbind
    exact (evalKind_of_not_bind hall hsource hchronicle h hclear hplace hne habreast hshares).weaken
      (fun _ h => h.elim) fun _ hvalue => ⟨hvalue, fun bind hkind => absurd hkind (hne bind)⟩

end

end Lockstep

/-- Evaluations go in lockstep at all depths of nesting. -/
theorem lockstep_eval (hsource : source.WellFormed) (comparison : Comparison) (steps' : Nat) :
    ∀ steps, source.Lockstep comparison (source.eval steps) (source.eval steps') := by
  induction steps' with
  | zero => exact fun _ _ _ _ _ _ _ _ _ _ _ => .unfinishedRight
  | succ steps' ih =>
      intro steps ledger pairing context context' id hchronicle hclear hplace habreast hshares
      cases steps with
      | zero => exact .unfinishedLeft
      | succ steps =>
          exact (Lockstep.evalKind ih hsource hchronicle (ih steps) hclear hplace habreast
            hshares).located habreast.callStacks

end Bindery.Source
