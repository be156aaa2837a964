import Bindery.Proofs.Eval.Lockstep
import Bindery.Proofs.Eval.Overflow

/-!
The calls of two runs in lockstep. Whatever node the second run calls, the first one calls as well,
from a context that is abreast, unless it is stuck before it comes there. Only where the second run
demands a bind of the ledger there is no such call: the first run has evaluated the bind before.
-/

namespace Bindery

/-- Where the second of two runs has come to a value, the first one has come to a value too, or it
is stuck. -/
theorem Twin.stuck_or_exists_value {α β : Type} {comparison : Comparison} {interner : Interner}
    {ledger : List Line} {own : NodeId → Prop} {pairing : Pairing}
    {context context' later' : Context} {related : Pairing → α → β → Context → Context → Prop}
    {outcome : Outcome α} {result' : β}
    (h : Twin comparison interner ledger own pairing context context' related outcome
      (.value result' later')) :
    outcome.Stuck ∨ ∃ pairing' result later, outcome = .value result later ∧
      Progress ledger own pairing context context' pairing' later later' ∧
      Abreast comparison ledger pairing' later later' ∧
      related pairing' result result' later later' := by
  cases h with
  | value hprogress habreast hrelated =>
      exact .inr ⟨_, _, _, rfl, hprogress, habreast, hrelated⟩
  | unfinishedLeft => exact .inl trivial
  | overflowLeft _ hover => exact .inl hover

namespace Source

variable {source : Source} {comparison : Comparison} {ledger : List Line} {pairing : Pairing}
  {context context' : Context} {recur recur' : NodeId → Step Value} {id node : NodeId}

/-- Two runs may evaluate a node in lockstep: they are abreast, they share what is visible there,
and nothing in the ledger stands at or under the node. -/
structure Aligned (source : Source) (comparison : Comparison) (ledger : List Line)
    (pairing : Pairing) (id : NodeId) (context context' : Context) : Prop where
  clear : source.Clear ledger id
  admits : Place.statement.admits (source.kind id).shape = true
  abreast : Abreast comparison ledger pairing context context'
  shares : Shares ledger pairing (source.visible id) context context'

namespace Aligned

theorem child (haligned : source.Aligned comparison ledger pairing id context context')
    (hsource : source.WellFormed)
    (hplaced : (Place.expression, node) ∈ source.arena.placements (source.kind id)) :
    source.Aligned comparison ledger pairing node context context' where
  clear := haligned.clear.child (WellFormed.mem_children_of_placed hplaced)
  admits := Place.statement_of_expression (hsource.admits_of_placed hplaced)
  abreast := haligned.abreast
  shares := by
    rw [hsource.visible_of_placed hplaced]
    exact haligned.shares

variable (haligned : source.Aligned comparison ledger pairing id context context')
  (h : source.Lockstep comparison recur recur') (hsource : source.WellFormed)
  (hchronicle : source.Chronicle comparison ledger)
include haligned h hsource hchronicle

/-- After an expression both go on where they are aligned. -/
theorem after_child {value' : Value} {later' : Context}
    (hplaced : (Place.expression, node) ∈ source.arena.placements (source.kind id))
    (hvalue' : recur' node context' = .value value' later') :
    (recur node context).Stuck ∨ ∃ pairing' value later, recur node context = .value value later ∧
      source.Aligned comparison ledger pairing' id later later' ∧ value.Alike pairing' value' := by
  have htwin := h.child hsource hchronicle haligned.clear haligned.abreast haligned.shares hplaced
  rw [hvalue'] at htwin
  rcases htwin.stuck_or_exists_value with
    hstuck | ⟨pairing', value, later, hvalue, hprogress, habreast, hrelated⟩
  · exact .inl hstuck
  · exact .inr ⟨pairing', value, later, hvalue, ⟨haligned.clear, haligned.admits, habreast,
      haligned.shares.progress hprogress fun _ _ h => h⟩, hrelated⟩

/-- After the callee of an evaluation and some of the arguments both go on where they are aligned.
-/
theorem after_arguments {callee : NodeId} {arguments : NodeRange} {before after : List NodeId}
    {called' : Value} {values' : List Value} {between' later' : Context}
    (hkind : source.kind id = .evaluate callee arguments)
    (hlist : source.list arguments = before ++ after)
    (hcallee' : recur' callee context' = .value called' between')
    (hbefore' : evalEach recur' before between' = .value values' later') :
    (source.evalKind recur id context).Stuck ∨ ∃ pairing' called values between later,
      recur callee context = .value called between ∧
      evalEach recur before between = .value values later ∧
      source.Aligned comparison ledger pairing' id later later' ∧ called.Alike pairing' called' ∧
      List.Forall₂ (Value.Alike pairing') values values' := by
  have hplaced : (Place.expression, callee) ∈ source.arena.placements (source.kind id) := by
    simp [hkind, Arena.placements]
  rcases haligned.after_child h hsource hchronicle hplaced hcallee' with
    hstuck | ⟨pairing', called, between, hcallee, haligned', hcalled⟩
  · exact .inl ((Calls.callee hkind).stuck hstuck)
  have hplaced (node : NodeId) (hnode : node ∈ before) :
      (Place.expression, node) ∈ source.arena.placements (source.kind id) :=
    WellFormed.placed_argument hkind (hlist ▸ List.mem_append_left _ hnode)
  have htwin := h.evalEach hsource hchronicle haligned'.clear hplaced haligned'.abreast
    haligned'.shares
  rw [hbefore'] at htwin
  rcases htwin.stuck_or_exists_value with
    hstuck | ⟨pairing'', values, later, hbefore, hprogress, habreast, hvalues⟩
  · refine .inl ?_
    simp only [evalKind, hkind, evalEvaluate, hlist]
    rw [Step.bind_of_value hcallee, evalEach_append]
    exact Step.stuck_bind (Step.stuck_bind hstuck)
  · exact .inr ⟨pairing'', called, values, between, later, hcallee, hbefore,
      ⟨haligned'.clear, haligned'.admits, habreast,
        haligned'.shares.progress hprogress fun _ _ h => h⟩, hcalled.mono hprogress.le, hvalues⟩

/-- Where the second run constructs, so does the first one, of alike values. -/
theorem constructs {structureId : NodeId} {definition : StructureNode} {values' : List Value}
    {inner' : Context}
    (hconstructs' : source.Constructs recur' id context' structureId definition values' inner') :
    (source.evalKind recur id context).Stuck ∨ ∃ pairing' values inner,
      source.Constructs recur id context structureId definition values inner ∧
      Abreast comparison ledger pairing' inner inner' ∧
      List.Forall₂ (Value.Alike pairing') values values' := by
  obtain ⟨callee, arguments, name, between', later', hkind, hcallee', harguments', henter'⟩ :=
    hconstructs'.called
  rcases haligned.after_arguments h hsource hchronicle hkind (List.append_nil _).symm hcallee'
    harguments' with
    hstuck | ⟨pairing', called, values, between, later, hcallee, harguments, haligned', hcalled,
      hvalues⟩
  · exact .inl hstuck
  obtain rfl : called = .structureRef structureId name := hcalled.symm
  have hlength : values.length ≤ (source.list definition.inputs).length := by
    rw [hvalues.length_eq]
    exact hconstructs'.length_le
  cases henter : later.enter ⟨.construct structureId definition.name, source.span id⟩ with
  | error =>
      refine .inl ?_
      simp only [evalKind, hkind, evalEvaluate]
      rw [Step.bind_of_value hcallee, Step.bind_of_value harguments]
      simp only [construct, hconstructs'.defined, if_neg (Nat.not_lt.mpr hlength)]
      exact Step.stuck_inFrame_of_full (Context.enter_eq_error.mp henter).1
  | ok inner =>
      exact .inr ⟨pairing', values, inner,
        ⟨⟨callee, arguments, name, between, later, hkind, hcallee, harguments, henter⟩,
          hconstructs'.defined, hlength⟩, haligned'.abreast.enter henter henter', hvalues⟩

/-- Where the second run has bound some of the inputs, so has the first one. -/
theorem after_inputs {structureId : NodeId} {definition : StructureNode} {values' : List Value}
    {inner' later' : Context} {before after : List NodeId} {properties' : Properties}
    (hconstructs' : source.Constructs recur' id context' structureId definition values' inner')
    (hlist : source.list definition.inputs = before ++ after)
    (hbefore' : source.supplyInputs recur' definition.name before values' [] inner' =
      .value properties' later') :
    (source.evalKind recur id context).Stuck ∨ ∃ pairing' values inner properties later,
      source.Constructs recur id context structureId definition values inner ∧
      values.length = values'.length ∧
      source.supplyInputs recur definition.name before values [] inner = .value properties later ∧
      Abreast comparison ledger pairing' later later' ∧
      PropertiesAlike pairing' properties properties' ∧
      Shares ledger pairing' (before.filterMap source.definition?) later later' := by
  rcases haligned.constructs h hsource hchronicle hconstructs' with
    hstuck | ⟨pairing₁, values, inner, hconstructs, habreast, hvalues⟩
  · exact .inl hstuck
  have hkind := structure?_eq_some.mp hconstructs.defined
  have halong := hsource.along_inputs hkind
  rw [hlist] at halong
  have hclear (input : NodeId) (hinput : input ∈ before) : source.Clear ledger input := by
    refine clear_of_not_under (fun line hline => hchronicle.outside line hline _ _ hkind) ?_
    rw [WellFormed.children_of_structureDef hkind, hlist]
    exact List.mem_append_left _ (List.mem_append_left _ hinput)
  have htwin : Twin _ _ _ _ _ _ _ _
      (source.supplyInputs recur definition.name before values [] inner) _ :=
    h.supplyInputs hsource hchronicle halong.left hclear habreast
      (fun _ hnil => absurd hnil List.not_mem_nil) hvalues (show PropertiesAlike _ [] [] from rfl)
  rw [hbefore'] at htwin
  rcases htwin.stuck_or_exists_value with
    hstuck | ⟨pairing₂, properties, later, hbefore, -, habreast', hproperties, hshares⟩
  · refine .inl (hconstructs.stuck (Step.stuck_bind ?_))
    rw [hlist, supplyInputs_append]
    exact Step.stuck_bind hstuck
  · exact .inr ⟨pairing₂, values, inner, properties, later, hconstructs, hvalues.length_eq, hbefore,
      habreast', hproperties, hshares⟩

/-- Where the second run evaluates a default, so does the first one. -/
theorem default {structureId input : NodeId} {definition : StructureNode} {values' : List Value}
    {inner' later' : Context} {before after : List NodeId} {properties' : Properties}
    {bind : BindNode}
    (hconstructs' : source.Constructs recur' id context' structureId definition values' inner')
    (hlist : source.list definition.inputs = before ++ input :: after)
    (hbefore' : source.supplyInputs recur' definition.name before values' [] inner' =
      .value properties' later')
    (hlength : values'.length ≤ (before.filterMap source.bind?).length)
    (hbind : source.bind? input = some bind) (hvalue : bind.value = some node) :
    (source.evalKind recur id context).Stuck ∨ ∃ pairing' later,
      source.Calls recur id context (some structureId) node later ∧
      source.Aligned comparison ledger pairing' node later later' := by
  rcases haligned.after_inputs h hsource hchronicle hconstructs' hlist hbefore' with
    hstuck | ⟨pairing', values, inner, properties, later, hconstructs, hvalues, hbefore, habreast,
      -, hshares⟩
  · exact .inl hstuck
  have hkind := structure?_eq_some.mp hconstructs.defined
  refine .inr ⟨pairing', later,
    .default hconstructs hlist hbefore (by rw [hvalues]; exact hlength) hbind hvalue, ?_⟩
  have hinput : source.Aligned comparison ledger pairing' input later later' := by
    refine ⟨clear_of_not_under (fun line hline => hchronicle.outside line hline _ _ hkind) ?_, ?_,
      habreast, ?_⟩
    · rw [WellFormed.children_of_structureDef hkind, hlist]
      simp
    · simp [bind?_eq_some.mp hbind, NodeKind.shape, Place.admits, hvalue]
    · rw [(hsource.along_inputs hkind).visible_eq before input after hlist]
      exact hshares
  exact hinput.child hsource (placed_value hbind hvalue)

/-- Where the second run evaluates a statement of a body, so does the first one. -/
theorem bodyStatement {structureId : NodeId} {definition : StructureNode} {values' : List Value}
    {inner' between' later' : Context} {before after : List NodeId}
    {supplied' properties' : Properties}
    (hconstructs' : source.Constructs recur' id context' structureId definition values' inner')
    (hinputs' : source.supplyInputs recur' definition.name (source.list definition.inputs) values'
      [] inner' = .value supplied' between')
    (hlist : source.bodyStatements definition = before ++ node :: after)
    (hbefore' : source.runBody recur' before supplied' between' = .value properties' later') :
    (source.evalKind recur id context).Stuck ∨ ∃ pairing' later,
      source.Calls recur id context (some structureId) node later ∧
      source.Aligned comparison ledger pairing' node later later' := by
  rcases haligned.after_inputs h hsource hchronicle hconstructs' (List.append_nil _).symm hinputs'
    with hstuck | ⟨pairing₁, values, inner, supplied, between, hconstructs, -, hinputs, habreast,
      hsupplied, hshares⟩
  · exact .inl hstuck
  have hkind := structure?_eq_some.mp hconstructs.defined
  have halong := hsource.along_body hkind
  have hclear (statement : NodeId) (hstatement : statement ∈ source.bodyStatements definition) :
      source.Clear ledger statement := by
    obtain ⟨body, statements, hbody, hblock, hstatements⟩ := exists_body hstatement
    refine (clear_of_not_under (fun line hline => hchronicle.outside line hline _ _ hkind)
      (WellFormed.mem_children_of_placed (placed_body hkind hbody))).child ?_
    rw [WellFormed.children_of_block hblock, ← hstatements]
    exact hstatement
  rw [hlist] at halong hclear
  have htwin := h.runBody hsource hchronicle halong.left
    (fun statement hstatement => hclear statement (List.mem_append_left _ hstatement)) habreast
    hshares hsupplied
  rw [hbefore'] at htwin
  rcases htwin.stuck_or_exists_value with
    hstuck | ⟨pairing₂, properties, later, hbefore, -, habreast', -, hshares'⟩
  · refine .inl (hconstructs.stuck ?_)
    rw [Step.bind_of_value hinputs, hlist, runBody_append]
    exact Step.stuck_bind (Step.stuck_bind hstuck)
  refine .inr ⟨pairing₂, later, .bodyStatement hconstructs hinputs hlist hbefore,
    hclear node (by simp), halong.admits node (by simp), habreast', ?_⟩
  rw [halong.visible_eq before node after rfl]
  exact hshares'

/-- Where the second run evaluates a statement of a block, so does the first one. -/
theorem statement {statements : NodeRange} {before after : List NodeId} {inner' later' : Context}
    {last' : Value} (hkind : source.kind id = .block statements)
    (hlist : source.list statements = before ++ node :: after)
    (henter' : context'.enter ⟨.block, source.span id⟩ = .ok inner')
    (hbefore' : evalSequence recur' .none before inner' = .value last' later') :
    (source.evalKind recur id context).Stuck ∨ ∃ pairing' later,
      source.Calls recur id context (some id) node later ∧
      source.Aligned comparison ledger pairing' node later later' := by
  cases henter : context.enter ⟨.block, source.span id⟩ with
  | error =>
      refine .inl ?_
      simp only [evalKind, hkind]
      exact Step.stuck_inFrame_of_full (Context.enter_eq_error.mp henter).1
  | ok inner =>
      have halong := hsource.along_block hkind
      have hclear (statement : NodeId) (hstatement : statement ∈ source.list statements) :
          source.Clear ledger statement := by
        refine haligned.clear.child ?_
        rw [WellFormed.children_of_block hkind]
        exact hstatement
      rw [hlist] at halong hclear
      have htwin := h.evalSequence hsource hchronicle halong.left
        (fun statement hstatement => hclear statement (List.mem_append_left _ hstatement))
        (haligned.abreast.enter henter henter') (haligned.shares.enter henter henter')
        (show Value.Alike _ .none .none from rfl)
      rw [hbefore'] at htwin
      rcases htwin.stuck_or_exists_value with
        hstuck | ⟨pairing', last, later, hbefore, -, habreast, -, hshares⟩
      · refine .inl ?_
        simp only [evalKind, hkind, evalBlock, hlist]
        refine Step.stuck_inFrame henter ?_
        rw [evalSequence_append]
        exact Step.stuck_bind hstuck
      refine .inr ⟨pairing', later, .statement hkind hlist henter hbefore,
        hclear node (by simp), halong.admits node (by simp), habreast, ?_⟩
      rw [halong.visible_eq before node after rfl]
      exact hshares

/-- Whatever the second run calls, the first one calls as well, unless it is stuck or has the bind
in its ledger. -/
theorem calls {entered : Option NodeId} {later' : Context}
    (hcalls' : source.Calls recur' id context' entered node later') :
    (source.evalKind recur id context).Stuck ∨
      (∃ pairing' later, source.Calls recur id context entered node later ∧
        source.Aligned comparison ledger pairing' node later later') ∨
      ∃ line ∈ ledger, line.bind = node ∧ later' = context' ∧ entered = none ∧
        ∃ name, source.kind id = .reference name ∧
          source.definitionOf? id name = some (.bind node) := by
  have hchild (hcalls : source.Calls recur id context none node context)
      (hplaced : (Place.expression, node) ∈ source.arena.placements (source.kind id)) :
      ∃ pairing' later, source.Calls recur id context none node later ∧
        source.Aligned comparison ledger pairing' node later context' :=
    ⟨pairing, context, hcalls, haligned.child hsource hplaced⟩
  cases hcalls' with
  | statement hkind hlist henter' hbefore' =>
      exact (haligned.statement h hsource hchronicle hkind hlist henter' hbefore').imp_right .inl
  | default hconstructs' hlist hbefore' hlength hbind hvalue =>
      exact (haligned.default h hsource hchronicle hconstructs' hlist hbefore' hlength hbind
        hvalue).imp_right .inl
  | bodyStatement hconstructs' hinputs' hlist hbefore' =>
      exact (haligned.bodyStatement h hsource hchronicle hconstructs' hinputs' hlist
        hbefore').imp_right .inl
  | @demanded name _ hkind hdefinition hlookup =>
      rcases hkind with hkind | hkind
      · obtain ⟨value, -, ⟨line, hline, heq, -⟩ | ⟨-, value', hvalue', -⟩⟩ :=
          haligned.shares node (mem_visible_of_definitionOf? hdefinition).1
        · exact .inr (.inr ⟨line, hline, heq, rfl, rfl, name, hkind, hdefinition⟩)
        · cases hlookup.symm.trans hvalue'
      · have hadmits := haligned.admits
        rw [hkind] at hadmits
        cases hadmits
  | value hkind hvalue =>
      exact .inr (.inl (hchild (.value hkind hvalue) (by simp [hkind, Arena.placements, hvalue])))
  | subject hkind => exact .inr (.inl (hchild (.subject hkind) (by simp [hkind, Arena.placements])))
  | callee hkind => exact .inr (.inl (hchild (.callee hkind) (by simp [hkind, Arena.placements])))
  | left hkind => exact .inr (.inl (hchild (.left hkind) (by simp [hkind, Arena.placements])))
  | operand hkind => exact .inr (.inl (hchild (.operand hkind) (by simp [hkind, Arena.placements])))
  | condition hkind =>
      exact .inr (.inl (hchild (.condition hkind) (by simp [hkind, Arena.placements])))
  | @argument callee arguments before _ after _ _ _ _ hkind hlist hcallee' hbefore' =>
      rcases haligned.after_arguments h hsource hchronicle hkind hlist hcallee' hbefore' with
        hstuck | ⟨pairing', called, values, between, later, hcallee, hbefore, haligned', -, -⟩
      · exact .inl hstuck
      have hplaced : (Place.expression, node) ∈ source.arena.placements (source.kind id) :=
        WellFormed.placed_argument hkind (by rw [hlist]; simp)
      exact .inr (.inl ⟨pairing', later, .argument hkind hlist hcallee hbefore,
        haligned'.child hsource hplaced⟩)
  | @right op left _ _ _ hkind hleft' =>
      have hplaced : (Place.expression, left) ∈ source.arena.placements (source.kind id) := by
        simp [hkind, Arena.placements]
      rcases haligned.after_child h hsource hchronicle hplaced hleft' with
        hstuck | ⟨pairing', value, later, hleft, haligned', -⟩
      · exact .inl ((Calls.left hkind).stuck hstuck)
      · exact .inr (.inl ⟨pairing', later, .right hkind hleft,
          haligned'.child hsource (by simp [hkind, Arena.placements])⟩)
  | @branch condition yes no choice _ hkind hcondition' =>
      have hplaced : (Place.expression, condition) ∈ source.arena.placements (source.kind id) := by
        simp [hkind, Arena.placements]
      rcases haligned.after_child h hsource hchronicle hplaced hcondition' with
        hstuck | ⟨pairing', value, later, hcondition, haligned', hvalue⟩
      · exact .inl ((Calls.condition hkind).stuck hstuck)
      obtain rfl : value = .boolean choice := hvalue.symm
      exact .inr (.inl ⟨pairing', later, .branch hkind hcondition,
        haligned'.child hsource (by cases choice <;> simp [hkind, Arena.placements])⟩)

end Aligned
end Source
end Bindery
