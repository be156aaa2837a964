import Bindery.Proofs.Eval.Activation
import Bindery.Proofs.Eval.History
import Bindery.Proofs.Eval.Shape

/-!
Instances and what they are built from. The properties of an instance mirror the frame in which it
was built: each of them holds what that frame has for the last bind of its name. So a member of an
instance is undefined just where no input and no bind of the body is named so, in every evaluation
that is performed in the course of a history.
-/

namespace Bindery

namespace Source

variable {source : Source}

/-- Among the nodes, `id` is the last bind of the name. -/
def LastOfName (source : Source) (ids : List NodeId) (id : NodeId) (name : Name) : Prop :=
  ∃ before after bind, ids = before ++ id :: after ∧ source.bind? id = some bind ∧
    bind.name = name ∧
    ∀ other ∈ after, ∀ bind', source.bind? other = some bind' → bind'.name ≠ name

/-- The properties hold what the frame has for the last bind of each name. -/
def Mirrors (source : Source) (ids : List NodeId) (frame : Frame) (properties : Properties) :
    Prop :=
  ∀ id name, source.LastOfName ids id name →
    ∃ value, frame.lookup id = some value ∧ properties.get? name = some value

theorem LastOfName.mem {ids : List NodeId} {id : NodeId} {name : Name}
    (h : source.LastOfName ids id name) : id ∈ ids := by
  obtain ⟨before, after, bind, rfl, -⟩ := h
  exact List.mem_append_right _ List.mem_cons_self

/-- The last bind of a name is the node that comes last, or else it comes before it. -/
theorem LastOfName.of_append_singleton {ids : List NodeId} {last id : NodeId} {name : Name}
    (h : source.LastOfName (ids ++ [last]) id name) :
    (id = last ∧ ∃ bind, source.bind? last = some bind ∧ bind.name = name) ∨
      source.LastOfName ids id name ∧
        ∀ bind, source.bind? last = some bind → bind.name ≠ name := by
  obtain ⟨before, after, bind, heq, hbind, hname, hafter⟩ := h
  rcases List.eq_nil_or_concat after with rfl | ⟨after, other, rfl⟩
  · obtain ⟨-, hlast⟩ := List.append_inj' heq rfl
    cases hlast
    exact .inl ⟨rfl, bind, hbind, hname⟩
  · rw [List.concat_eq_append, ← List.cons_append, ← List.append_assoc] at heq
    obtain ⟨rfl, hlast⟩ := List.append_inj' heq rfl
    cases hlast
    refine .inr ⟨⟨before, after, bind, rfl, hbind, hname, fun node hnode => ?_⟩, ?_⟩
    · exact hafter node (by simp [hnode])
    · exact hafter last (by simp)

namespace Mirrors

variable {ids : List NodeId} {frame : Frame} {properties : Properties} {id : NodeId}

theorem nil : source.Mirrors [] [] [] := fun _ _ hlast => absurd hlast.mem List.not_mem_nil

/-- A bind that comes after the others sets its property. -/
theorem bind (h : source.Mirrors ids frame properties) (hnot : id ∉ ids) {bind : BindNode}
    (hbind : source.bind? id = some bind) (value : Value) :
    source.Mirrors (ids ++ [id]) ((id, value) :: frame) (properties.set bind.name value) := by
  intro node name hlast
  rcases hlast.of_append_singleton with ⟨rfl, bind', hbind', rfl⟩ | ⟨hlast, hne⟩
  · cases hbind.symm.trans hbind'
    exact ⟨value, by simp, by rw [Properties.get?_set, if_pos rfl]⟩
  · obtain ⟨held, hheld, hproperty⟩ := h node name hlast
    have hnode : node ≠ id := fun heq => hnot (heq ▸ hlast.mem)
    refine ⟨held, ?_, ?_⟩
    · rw [List.lookup_cons, beq_false_of_ne hnode]
      exact hheld
    · rw [Properties.get?_set, if_neg (Ne.symm (hne bind hbind))]
      exact hproperty

theorem skip (h : source.Mirrors ids frame properties) (hnone : source.bind? id = none) :
    source.Mirrors (ids ++ [id]) frame properties := by
  intro node name hlast
  rcases hlast.of_append_singleton with ⟨-, bind, hbind, -⟩ | ⟨hlast, -⟩
  · cases hnone.symm.trans hbind
  · exact h node name hlast

/-- Properties and frame take up a statement or an input in the same way. -/
theorem step (hsource : source.WellFormed) (h : source.Mirrors ids frame properties)
    (hvisible : source.visible id = ids.filterMap source.definition?) (base : Context)
    (value : Value) :
    source.Mirrors (ids ++ [id]) (source.binding id value ++ frame)
      ((source.program base).kept id value properties) := by
  have hkind : (source.program base).kind id = source.kind id := rfl
  simp only [binding, Lexical.Program.kept, hkind]
  cases hid : source.kind id with
  | bind bind =>
      refine h.bind (fun hmem => ?_) (by simp only [bind?, hid]) value
      -- A bind among the nodes before it would be visible at itself.
      refine hsource.not_mem_visible id ?_
      rw [hvisible]
      exact List.mem_filterMap.mpr ⟨id, hmem, by simp only [definition?, hid]⟩
  | block | structureDef | property | memberName | reference | evaluate | number | text | boolean
  | binary | unary | conditional => exact h.skip (by simp only [bind?, hid])

end Mirrors

theorem definitions_append_singleton (ids : List NodeId) (id : NodeId) :
    ids.filterMap source.definition? ++ (source.definition? id).toList =
      (ids ++ [id]).filterMap source.definition? := by
  rw [List.filterMap_append, List.filterMap_cons, List.filterMap_nil]
  cases source.definition? id <;> rfl

namespace Agrees
open Lexical

variable {program : Program} {recur : NodeId → Step Value}
  {recur' : (live : Nat) → Scope → NodeId → Run Value} (h : source.Agrees program recur recur')
  {base : Context} (hbase : source.program base = program) {done : List NodeId} {frame : Frame}
  {outer : List Frame} {properties : Properties} {scope : Scope} {built : Nat}
include h hbase

/-- The inputs of a structure are mirrored by the properties once they are supplied. -/
theorem mirrors_inputs (hsource : source.WellFormed) {structureName : Name} {inputs : List NodeId}
    {arguments : List Value}
    (halong : source.Along .input (done.filterMap source.definition?) inputs)
    (hmatches : source.Matches (frame :: outer) (done.filterMap source.definition?) scope)
    (hmirrors : source.Mirrors done frame properties) :
    Simulates base
      (fun properties result frames => ∃ frame, frames = frame :: outer ∧
        source.Mirrors (done ++ inputs) frame properties ∧
        source.Matches frames ((done ++ inputs).filterMap source.definition?) result.1)
      (source.supplyInputs recur structureName inputs arguments properties
        (base.at (frame :: outer) built))
      (program.evalInputs (recur' base.depth) structureName scope inputs arguments properties
        built) := by
  induction inputs generalizing done scope built arguments properties frame with
  | nil => exact .pure ⟨frame, rfl, by rwa [List.append_nil], by rwa [List.append_nil]⟩
  | cons input rest ih =>
      have hhead := halong.head
      have hadmits := halong.admits input List.mem_cons_self
      rw [← hhead] at hmatches
      cases hkind : source.kind input with
      | bind bind =>
          have hbind : source.bind? input = some bind := by simp only [bind?, hkind]
          have hkind' : program.kind input = .bind bind := by
            subst hbase
            exact hkind
          rw [supplyInputs_cons hbind, Program.evalInputs.eq_def]
          simp only [hkind']
          refine (h.inputValue hbase hsource hkind hmatches).bind
            fun value result frames built hok => ?_
          obtain ⟨rfl, rfl⟩ := hok
          refine (checkType hbase bind.type value).bind fun _ _ frames built hok => ?_
          subst hok
          refine .record ?_
          have hbinding : source.binding input value ++ frame = (input, value) :: frame := by
            simp only [binding, hkind, List.singleton_append]
          have hdeclared : program.declared input value = [(bind.name, .value value)] := by
            simp only [Program.declared, hkind']
          have hkept : program.kept input value properties =
              properties.set bind.name value := by
            simp only [Program.kept, hkind']
          have hmatches' := hmatches.step hsource base value
          have hmirrors' := hmirrors.step hsource hhead base value
          rw [hbase, hdeclared, hbinding, hhead] at hmatches'
          rw [hbase, hkept, hbinding] at hmirrors'
          have htail := halong.tail
          rw [definitions_append_singleton] at htail hmatches'
          rw [List.append_cons]
          exact ih htail hmatches' hmirrors'
      | block | structureDef | property | memberName | reference | evaluate | number | text
      | boolean | binary | unary | conditional => rw [hkind] at hadmits; cases hadmits

/-- So are the binds of its body. -/
theorem mirrors_body (hsource : source.WellFormed) {ids : List NodeId}
    (halong : source.Along .statement (done.filterMap source.definition?) ids)
    (hmatches : source.Matches (frame :: outer) (done.filterMap source.definition?) scope)
    (hmirrors : source.Mirrors done frame properties) :
    Simulates base
      (fun properties _ frames => ∃ frame, frames = frame :: outer ∧
        source.Mirrors (done ++ ids) frame properties)
      (source.runBody recur ids properties (base.at (frame :: outer) built))
      (program.evalBody (recur' base.depth) scope ids properties built) := by
  induction ids generalizing done scope built properties frame with
  | nil => exact .pure ⟨frame, rfl, by rwa [List.append_nil]⟩
  | cons id rest ih =>
      have hhead := halong.head
      rw [← hhead] at hmatches
      have hfirst := h base (frame :: outer) built scope id hbase
        (halong.admits id List.mem_cons_self) (fun _ _ => List.cons_ne_nil _ _) hmatches
      rw [runBody_cons recur base, hbase]
      refine hfirst.bind fun value result frames built hok => ?_
      obtain ⟨rfl, rfl⟩ := hok
      have hmatches' := hmatches.step hsource base value
      have hmirrors' := hmirrors.step hsource hhead base value
      rw [hbase, hhead, definitions_append_singleton] at hmatches'
      rw [hbase] at hmirrors'
      have htail := halong.tail
      rw [definitions_append_singleton] at htail
      rw [List.append_cons]
      exact ih htail hmatches' hmirrors'

end Agrees

/-- When a construction has run all of its body, its properties mirror its frame. -/
theorem mirrors_of_construction (hsource : source.WellFormed) {structureId : NodeId}
    {definition : StructureNode} (hkind : source.kind structureId = .structureDef definition)
    {steps : Nat} {values : List Value} {properties properties' : Properties} {outer : List Frame}
    {inner between final : Context} (hinner : inner.frames = [] :: outer)
    (hinputs : source.supplyInputs (source.eval steps) definition.name
      (source.list definition.inputs) values [] inner = .value properties between)
    (hbody : source.runBody (source.eval steps) (source.bodyStatements definition) properties
      between = .value properties' final) :
    ∃ frame, final.frames = frame :: outer ∧
      source.Mirrors (source.slots definition) frame properties' := by
  have hagrees := source.agrees_eval hsource (source.program inner) steps
  have hstart : inner = inner.at ([] :: outer) inner.built := by
    rw [← hinner]
    rfl
  rw [hstart] at hinputs
  have hempty : source.Matches ([] :: outer) (([] : List NodeId).filterMap source.definition?) [] :=
    rfl
  have halong : source.Along .input (([] : List NodeId).filterMap source.definition?) _ :=
    hsource.along_inputs hkind
  obtain ⟨_, _, _, rfl, frame, rfl, hmirrors, hmatches⟩ := exists_at_of_simulates
    (hagrees.mirrors_inputs rfl hsource halong hempty .nil) hinputs
  obtain ⟨_, _, _, rfl, frame', rfl, hmirrors'⟩ := exists_at_of_simulates
    (hagrees.mirrors_body rfl hsource (hsource.along_body hkind) hmatches hmirrors) hbody
  exact ⟨frame', rfl, hmirrors'⟩

/-- What a construction that has run all of its body comes to. -/
theorem Constructs.eval_eq {steps : Nat} {id structureId : NodeId} {definition : StructureNode}
    {values : List Value} {properties properties' : Properties}
    {context inner between final : Context}
    (h : source.Constructs (source.eval steps) id context structureId definition values inner)
    (hinputs : source.supplyInputs (source.eval steps) definition.name
      (source.list definition.inputs) values [] inner = .value properties between)
    (hbody : source.runBody (source.eval steps) (source.bodyStatements definition) properties
      between = .value properties' final) :
    source.eval (steps + 1) id context =
      .value (.inst final.nextIdentity definition.name structureId properties')
        { final with built := final.built + 1 }.leave := by
  obtain ⟨callee, arguments, name, called, evaluated, hkind, hcallee, harguments, henter⟩ :=
    h.called
  have hlength : ¬ values.length > (source.list definition.inputs).length :=
    Nat.not_lt.mpr h.length_le
  have hconstruct : source.construct (source.eval steps) structureId values (source.span id)
      evaluated = .value (.inst final.nextIdentity definition.name structureId properties')
        { final with built := final.built + 1 }.leave := by
    simp only [construct, h.defined, if_neg hlength, Step.inFrame, henter]
    rw [Step.bind_of_value hinputs, Step.bind_of_value hbody]
    rfl
  simp only [eval, evalKind, hkind, evalEvaluate, Step.located]
  rw [Step.bind_of_value hcallee, Step.bind_of_value harguments]
  simp only [hconstruct]

/-- What is in order when a node is evaluated, further evaluations being nested at most `steps`
deep, and stays so. -/
structure Orderly (source : Source) (steps : Nat) (id : NodeId) (context : Context) : Prop where
  ends : source.eval (steps + 1) id context ≠ .unfinished
  start : source.InOrder context
  value : ∀ value later, source.eval (steps + 1) id context = .value value later →
    value.Shaped source ∧ source.Accepts id value ∧ source.InOrder later
  error : ∀ error later, source.eval (steps + 1) id context = .error error later →
    source.InOrder later
  /-- What is called a structure is one, so a construction never lacks a definition. -/
  callee : ∀ callee arguments structureId name later, source.kind id = .evaluate callee arguments →
    source.eval steps callee context = .value (.structureRef structureId name) later →
    ∃ definition, source.structure? structureId = some definition ∧ definition.name = name
  arguments : ∀ callee arguments called values between later,
    source.kind id = .evaluate callee arguments →
    source.eval steps callee context = .value called between →
    evalEach (source.eval steps) (source.list arguments) between = .value values later →
    ∀ value ∈ values, value.Shaped source
  /-- The frame of a construction is in order after each of the inputs. -/
  inputs : ∀ structureId definition values inner before after properties later,
    source.Constructs (source.eval steps) id context structureId definition values inner →
    source.list definition.inputs = before ++ after →
    source.supplyInputs (source.eval steps) definition.name before values [] inner =
      .value properties later → source.InOrder later
  /-- An instance has a property for each name among the inputs and the binds of the body, in the
  order in which the names come first, with the value that the last bind of the name has got. -/
  built : ∀ structureId definition values inner properties between properties' final,
    source.Constructs (source.eval steps) id context structureId definition values inner →
    source.supplyInputs (source.eval steps) definition.name (source.list definition.inputs) values
      [] inner = .value properties between →
    source.runBody (source.eval steps) (source.bodyStatements definition) properties between =
      .value properties' final →
    source.InOrder final ∧
    properties'.map Prod.fst = ((source.propertyBinds definition).map (·.name)).eraseDups ∧
    (∃ frame outer, final.frames = frame :: outer ∧
      source.Mirrors (source.slots definition) frame properties') ∧
    source.eval (steps + 1) id context =
      .value (.inst final.nextIdentity definition.name structureId properties')
        { final with built := final.built + 1 }.leave
  /-- A member of an instance is undefined exactly if nothing in its definition is named so. -/
  member : ∀ subject member name identity typeName structureId properties later,
    source.kind id = .property subject member → source.kind member = .memberName name →
    source.eval steps subject context =
      .value (.inst identity typeName structureId properties) later →
    ∃ definition, source.structure? structureId = some definition ∧ definition.name = typeName ∧
      ((∃ error, source.eval (steps + 1) id context = .error error later ∧
          error.fault = .undefinedProperty (source.nameText typeName) (source.nameText name)) ↔
        ∀ bind ∈ source.propertyBinds definition, bind.name ≠ name)

/-- What a member of an instance comes to. -/
theorem eval_property {steps : Nat} {id subject member structureId : NodeId} {name typeName : Name}
    {identity : Identity} {properties : Properties} {context later : Context}
    (hkind : source.kind id = .property subject member)
    (hmember : source.kind member = .memberName name)
    (hsubject : source.eval steps subject context =
      .value (.inst identity typeName structureId properties) later) :
    (∃ error, source.eval (steps + 1) id context = .error error later ∧
        error.fault = .undefinedProperty (source.nameText typeName) (source.nameText name)) ↔
      properties.get? name = none := by
  simp only [eval, evalKind, hkind, evalProperty, Step.located]
  rw [Step.bind_of_value hsubject]
  simp only [propertyOf, hmember]
  cases properties.get? name with
  | some value =>
      refine iff_of_false ?_ fun heq => by cases heq
      rintro ⟨_, heq, -⟩
      cases heq
  | none => exact iff_of_true ⟨_, rfl, CallStack.fault_attach ..⟩ rfl

/-- From a context in order every evaluation is orderly. -/
theorem orderly_of_inOrder (hsource : source.WellFormed) {steps : Nat} {id : NodeId}
    {context : Context} (hends : source.eval (steps + 1) id context ≠ .unfinished)
    (hstart : source.InOrder context) : source.Orderly steps id context := by
  have hgoverns := source.governs_shapes hsource context.maxDepth
  have hholds : (source.shapes context.maxDepth).holds () context := ⟨hstart, rfl⟩
  have hsupplied {structureId : NodeId} {definition : StructureNode} {values : List Value}
      {inner later : Context} {inputs : List NodeId} {properties : Properties}
      (hconstructs : source.Constructs (source.eval steps) id context structureId definition values
        inner)
      (hinputs : source.supplyInputs (source.eval steps) definition.name inputs values [] inner =
        .value properties later) :
      (source.shapes context.maxDepth).holds () later ∧
        ∃ bound : List (BindNode × Value), properties = Properties.ofBinds bound ∧
          bound.map Prod.fst = inputs.filterMap source.bind? ∧
          ∀ entry ∈ bound, entry.2.Shaped source ∧ entry.1.Accepts entry.2 := by
    obtain ⟨_, -, hinner, hvalues⟩ := Discipline.of_constructs (hgoverns steps) hholds hconstructs
    obtain ⟨_, -, hlater, hbound⟩ :=
      Discipline.of_supplyInputs (hgoverns steps) hinner hvalues hinputs
    exact ⟨hlater, hbound⟩
  refine ⟨hends, hstart, ?value, ?error, ?callee, ?arguments, ?inputs, ?built, ?member⟩
  case value =>
    intro value later hvalue
    obtain ⟨_, -, hlater, hshaped, haccepts⟩ := (hgoverns (steps + 1) id () context hholds).of_value
      hvalue
    exact ⟨hshaped, haccepts, hlater.1⟩
  case error =>
    intro error later herror
    obtain ⟨_, -, hlater⟩ := (hgoverns (steps + 1) id () context hholds).of_context?
      (show Outcome.context? _ = some later by rw [herror]; rfl)
    exact hlater.1
  case callee =>
    intro callee arguments structureId name later _ hcallee
    obtain ⟨_, -, -, hshaped⟩ := (Discipline.keeps_recur (hgoverns steps) hholds).of_value hcallee
    exact hshaped
  case arguments =>
    intro callee arguments called values between later _ hcallee harguments
    obtain ⟨_, -, hbetween, -⟩ := (Discipline.keeps_recur (hgoverns steps) hholds).of_value hcallee
    obtain ⟨_, -, -, hvalues⟩ :=
      (Discipline.keeps_evalEach (hgoverns steps) hbetween).of_value harguments
    exact hvalues
  case inputs =>
    intro structureId definition values inner before after properties later hconstructs _ hbefore
    exact (hsupplied hconstructs hbefore).1.1
  case built =>
    intro structureId definition values inner properties between properties' final hconstructs
      hinputs hbody
    obtain ⟨hbetween, bound, rfl, hbinds, hbound⟩ := hsupplied hconstructs hinputs
    obtain ⟨_, -, hfinal, bound', rfl, hbinds', -⟩ :=
      (Discipline.keeps_runBody (hgoverns steps) hbetween hbound).of_value hbody
    obtain ⟨_, _, _, _, outer, -, -, -, henter⟩ := hconstructs.called
    obtain ⟨frame, hframe⟩ := mirrors_of_construction hsource
      (structure?_eq_some.mp hconstructs.defined)
      (congrArg Context.frames (Context.eq_of_enter henter)) hinputs hbody
    refine ⟨hfinal.1, ?_, ⟨frame, outer.frames, hframe⟩, hconstructs.eval_eq hinputs hbody⟩
    rw [Properties.map_fst_ofBinds, propertyBinds, slots, List.filterMap_append, ← hbinds,
      ← hbinds', List.map_map]
    rfl
  case member =>
    intro subject member name identity typeName structureId properties later hkind hmember hsubject
    obtain ⟨_, -, -, ⟨definition, hstructure, hname, hhold⟩, -⟩ :=
      (Discipline.keeps_recur (hgoverns steps) hholds).of_value hsubject
    exact ⟨definition, hstructure, hname,
      (eval_property hkind hmember hsubject).trans (hhold.get?_eq_none_iff name)⟩

/-- However nodes of a program are evaluated one after the other in a context that was fresh at
first: what the context holds is in order, and so is every evaluation that is performed on the way.
What a node comes to at last is a value in shape, or the error with which its evaluation failed. -/
theorem orderly_of_performs {name text : String} {interner : Interner} {source : Source}
    (h : (parse name text interner).1 = .ok source) (limits : Limits) (owner : Nat)
    (history : List NodeId) :
    source.InOrder (source.used history (.fresh limits owner)) ∧
    (∀ id, (source.evaluate id (source.used history (.fresh limits owner))).1.Shaped source ∨
      ∃ error, (source.evaluate id (source.used history (.fresh limits owner))).1 =
        .error error) ∧
    ∀ steps id context, source.Performs (.fresh limits owner) history steps id context →
      ∃ steps', steps = steps' + 1 ∧ source.Orderly steps' id context := by
  have hsource := wellFormed_of_parse h
  have hgoverns := source.governs_shapes hsource limits.maxDepth
  have hholds : (source.shapes limits.maxDepth).holds () (.fresh limits owner) :=
    ⟨.fresh limits owner, rfl⟩
  obtain ⟨_, -, hused⟩ := Discipline.of_used hgoverns hholds history
  refine ⟨hused.1, fun id => ?_, fun steps id context hperforms => ?_⟩
  · rw [evaluate]
    have hkeeps := hgoverns (source.stepBound (source.used history (.fresh limits owner))) id ()
      _ hused
    split
    · rename_i value later hvalue
      obtain ⟨_, -, -, hshaped, -⟩ := hkeeps.of_value hvalue
      exact .inl hshaped
    · exact .inr ⟨_, rfl⟩
    · exact .inr ⟨_, rfl⟩
  · have hends := ne_unfinished_of_performs hsource hperforms
    obtain ⟨_, -, hstart⟩ := Discipline.of_performs hgoverns hholds hperforms
    cases steps with
    | zero => exact absurd rfl hends
    | succ steps => exact ⟨steps, rfl, orderly_of_inOrder hsource hends hstart.1⟩

/-- A structure with a repeated name, used after a default of it was evaluated on its own. -/
theorem orderly_of_performs_of_repetition :
    ∃ source, (parse "<code>" "•P(a: 1) (a: \"x\" b: a)\nP(2).c" .empty).1 = .ok source ∧
      let history := [⟨1⟩, source.root]
      source.InOrder (source.used history (.fresh {} 0)) ∧
      (∀ id, (source.evaluate id (source.used history (.fresh {} 0))).1.Shaped source ∨
        ∃ error, (source.evaluate id (source.used history (.fresh {} 0))).1 = .error error) ∧
      ∀ steps id context, source.Performs (.fresh {} 0) history steps id context →
        ∃ steps', steps = steps' + 1 ∧ source.Orderly steps' id context := by
  obtain ⟨source, h⟩ :
      ∃ source, (parse "<code>" "•P(a: 1) (a: \"x\" b: a)\nP(2).c" .empty).1 = .ok source :=
    exists_of_isOk (by decide +kernel)
  exact ⟨source, h, orderly_of_performs h {} 0 [⟨1⟩, source.root]⟩

end Source
end Bindery
