import Bindery.Proofs.Eval.Termination
import Bindery.Proofs.Scope.Rules

/-!
What evaluation keeps. A discipline says which contexts are in order and which values are, in a
world that may grow while instances are built. If the primitive steps of the evaluator respect a
discipline, so does every evaluation: from a context in order it comes to a value in order or to one
of the admitted faults, and the context that it leaves behind is in order, whatever it comes to.
-/

namespace Bindery

/-- The nodes that a construction binds in its frame, in this order: the inputs of the structure,
then the statements of its body. -/
def Source.slots (source : Source) (definition : StructureNode) : List NodeId :=
  source.list definition.inputs ++ source.bodyStatements definition

/-- The binds of a structure: its inputs, then the binds of its body. -/
def Source.propertyBinds (source : Source) (definition : StructureNode) : List BindNode :=
  (source.slots definition).filterMap source.bind?

/-- The value is of the type that a bind declares for it. -/
def BindNode.Accepts (bind : BindNode) (value : Value) : Prop :=
  ∀ type, bind.type = some type → value.conforms type = true

/-- The value may be bound by the node. Only binds declare types. -/
def Source.Accepts (source : Source) (id : NodeId) (value : Value) : Prop :=
  ∀ bind, source.bind? id = some bind → bind.Accepts value

/-- The properties that a construction sets, one bind after the other. -/
def Properties.ofBinds (bound : List (BindNode × Value)) : Properties :=
  bound.foldl (fun properties entry => properties.set entry.1.name entry.2) []

theorem Properties.ofBinds_append_singleton (bound : List (BindNode × Value)) (bind : BindNode)
    (value : Value) :
    ofBinds (bound ++ [(bind, value)]) = (ofBinds bound).set bind.name value := by
  simp only [ofBinds, List.foldl_append, List.foldl_cons, List.foldl_nil]

/-- Whatever is held in the frames or kept on demand is so. -/
structure Context.HoldsOnly (good : NodeId → Value → Prop) (context : Context) : Prop where
  frames : ∀ frame ∈ context.frames, ∀ entry ∈ frame, good entry.1 entry.2
  demanded : ∀ entry ∈ context.demanded, good entry.1 entry.2

theorem Frame.mem_of_lookup {frame : Frame} {bind : NodeId} {value : Value}
    (h : frame.lookup bind = some value) : (bind, value) ∈ frame := by
  induction frame with
  | nil => cases h
  | cons entry rest ih =>
      obtain ⟨key, held⟩ := entry
      rw [List.lookup_cons] at h
      split at h
      · rename_i heq
        cases h
        exact eq_of_beq heq ▸ List.mem_cons_self
      · exact List.mem_cons_of_mem _ (ih h)

namespace Context.HoldsOnly

variable {good good' : NodeId → Value → Prop} {context inner : Context} {bind : NodeId}
  {value : Value}

theorem mono (h : context.HoldsOnly good) (hle : ∀ bind value, good bind value → good' bind value) :
    context.HoldsOnly good' :=
  ⟨fun frame hframe entry hentry => hle _ _ (h.frames frame hframe entry hentry),
    fun entry hentry => hle _ _ (h.demanded entry hentry)⟩

theorem lookup? (h : context.HoldsOnly good) (hlookup : context.lookup? bind = some value) :
    good bind value := by
  rcases Option.or_eq_some_iff.mp hlookup with hframes | ⟨-, hdemanded⟩
  · obtain ⟨frame, hframe, hvalue⟩ := List.exists_of_findSome?_eq_some hframes
    exact h.frames frame hframe _ (Frame.mem_of_lookup hvalue)
  · exact h.demanded _ (Frame.mem_of_lookup hdemanded)

theorem keep (h : context.HoldsOnly good) (hgood : good bind value) :
    (context.keep bind value).HoldsOnly good := by
  refine ⟨h.frames, fun entry hentry => ?_⟩
  rcases List.mem_cons.mp hentry with rfl | hentry
  · exact hgood
  · exact h.demanded entry hentry

theorem record (h : context.HoldsOnly good) (hgood : good bind value) :
    (context.record bind value).HoldsOnly good := by
  simp only [Context.record]
  split
  · exact h.keep hgood
  · rename_i frame outer hframes
    have hheld := h.frames
    rw [hframes] at hheld
    refine ⟨fun other hother entry hentry => ?_, h.demanded⟩
    rcases List.mem_cons.mp hother with rfl | hother
    · rcases List.mem_cons.mp hentry with rfl | hentry
      · exact hgood
      · exact hheld frame List.mem_cons_self entry hentry
    · exact hheld other (List.mem_cons_of_mem _ hother) entry hentry

theorem enter (h : context.HoldsOnly good) {frame : CallFrame}
    (henter : context.enter frame = .ok inner) : inner.HoldsOnly good := by
  obtain ⟨-, rfl⟩ := Context.enter_eq_ok.mp henter
  refine ⟨fun other hother => ?_, h.demanded⟩
  rcases List.mem_cons.mp hother with rfl | hother
  · exact fun entry hentry => absurd hentry List.not_mem_nil
  · exact h.frames other hother

theorem leave (h : context.HoldsOnly good) : context.leave.HoldsOnly good :=
  ⟨fun frame hframe => h.frames frame (List.mem_of_mem_tail hframe), h.demanded⟩

theorem fresh (limits : Limits) (owner : Nat) : (Context.fresh limits owner).HoldsOnly good :=
  ⟨fun _ hframe => absurd hframe List.not_mem_nil, fun _ hentry => absurd hentry List.not_mem_nil⟩

end Context.HoldsOnly

/-- Which contexts and which values are in order, in a world that may grow, and which faults are
admitted. -/
structure Discipline (source : Source) (World : Type) where
  le : World → World → Prop
  holds : World → Context → Prop
  good : World → Value → Prop
  admits : Fault → Prop
  le_refl : ∀ world, le world world
  le_trans : ∀ {world world' world''}, le world world' → le world' world'' → le world world''
  good_mono : ∀ {world world' value}, le world world' → good world value → good world' value
  good_none : ∀ world, good world .none
  good_text : ∀ world s, good world (.text s)
  good_boolean : ∀ world b, good world (.boolean b)
  good_structureRef : ∀ world {id definition}, source.kind id = .structureDef definition →
    good world (.structureRef id definition.name)
  good_property : ∀ {world identity typeName definition properties name value},
    good world (.inst identity typeName definition properties) →
    Properties.get? properties name = some value → good world value
  lookup? : ∀ {world context bind value}, holds world context →
    context.lookup? bind = some value → good world value
  record : ∀ {world context bind value}, holds world context → good world value →
    source.Accepts bind value → holds world (context.record bind value)
  keep : ∀ {world context bind value}, holds world context → good world value →
    source.Accepts bind value → holds world (context.keep bind value)
  enter : ∀ {world context frame inner}, holds world context →
    context.enter frame = .ok inner → holds world inner
  leave : ∀ {world context}, holds world context → holds world context.leave
  /-- What is built from values in order is in order, in a world that may be larger. -/
  build : ∀ {world context id definition} {bound : List (BindNode × Value)}, holds world context →
    source.structure? id = some definition →
    bound.map Prod.fst = source.propertyBinds definition →
    (∀ entry ∈ bound, good world entry.2 ∧ entry.1.Accepts entry.2) →
    ∃ world', le world world' ∧ holds world' { context with built := context.built + 1 } ∧
      good world' (.inst context.nextIdentity definition.name id (Properties.ofBinds bound))
  fail : ∀ {fault}, (∀ limit, fault ≠ .stackOverflow limit) → admits fault
  overflow : ∀ {world context}, holds world context → admits (.stackOverflow context.maxDepth)

namespace Discipline

variable {source : Source} {World : Type} (discipline : Discipline source World)

/-- The outcome is in order: so is the context left behind, in a world that may have grown, and the
result is what `post` asks for. -/
def Keeps {α : Type} (world : World) (post : World → α → Prop) : Outcome α → Prop
  | .value result later => ∃ world', discipline.le world world' ∧ discipline.holds world' later ∧
      post world' result
  | .error error later => ∃ world', discipline.le world world' ∧ discipline.holds world' later ∧
      discipline.admits error.fault
  | .unfinished => True

/-- What an evaluator has to ensure of the nodes that it is called for. -/
def Governs (recur : NodeId → Step Value) : Prop :=
  ∀ node world context, discipline.holds world context →
    discipline.Keeps world
      (fun world' value => discipline.good world' value ∧ source.Accepts node value)
      (recur node context)

/-- Numbers may come up: the source has one, or some number is in order. -/
def Numeric : Prop :=
  (∃ id bits, source.kind id = .number bits) ∨ ∃ world x, discipline.good world (.number x)

/-- A value in order, or a number where numbers may come up: what is made of values in order. -/
def Result (world : World) (value : Value) : Prop :=
  discipline.good world value ∨ discipline.Numeric ∧ ∃ x, value = .number x

variable {discipline} {α β : Type} {world : World} {context : Context}
  {recur : NodeId → Step Value}

namespace Keeps

variable {post : World → α → Prop}

theorem after {world' : World} {outcome : Outcome α} (hle : discipline.le world world')
    (h : discipline.Keeps world' post outcome) : discipline.Keeps world post outcome := by
  cases outcome with
  | value | error =>
      obtain ⟨world'', hle', hpost⟩ := h
      exact ⟨world'', discipline.le_trans hle hle', hpost⟩
  | unfinished => exact h

theorem weaken {post' : World → α → Prop} {outcome : Outcome α}
    (h : discipline.Keeps world post outcome)
    (hpost : ∀ world' result, discipline.le world world' → post world' result →
      post' world' result) : discipline.Keeps world post' outcome := by
  cases outcome with
  | value result later =>
      obtain ⟨world', hle, hholds, hresult⟩ := h
      exact ⟨world', hle, hholds, hpost world' result hle hresult⟩
  | error => exact h
  | unfinished => exact h

theorem pure {result : α} (hholds : discipline.holds world context) (hpost : post world result) :
    discipline.Keeps world post ((Pure.pure result : Step α) context) :=
  ⟨world, discipline.le_refl world, hholds, hpost⟩

theorem fail {fault : Fault} (hholds : discipline.holds world context)
    (hfault : ∀ limit, fault ≠ .stackOverflow limit) :
    discipline.Keeps world post ((Step.fail fault : Step α) context) :=
  ⟨world, discipline.le_refl world, hholds, discipline.fail hfault⟩

theorem bind {post' : World → β → Prop} {first : Step α} {next : α → Step β}
    (hfirst : discipline.Keeps world post (first context))
    (hnext : ∀ world' result later, discipline.le world world' → discipline.holds world' later →
      post world' result → discipline.Keeps world' post' (next result later)) :
    discipline.Keeps world post' ((first >>= next) context) := by
  rw [Step.bind_apply]
  cases h : first context with
  | value result later =>
      rw [h] at hfirst
      obtain ⟨world', hle, hholds, hresult⟩ := hfirst
      exact (hnext world' result later hle hholds hresult).after hle
  | error error later =>
      rw [h] at hfirst
      exact hfirst
  | unfinished => trivial

theorem record {bind : NodeId} {value : Value} (hholds : discipline.holds world context)
    (hgood : discipline.good world value) (haccepts : source.Accepts bind value) :
    discipline.Keeps world (fun _ _ => True) (Step.record bind value context) :=
  ⟨world, discipline.le_refl world, discipline.record hholds hgood haccepts, trivial⟩

theorem keep {bind : NodeId} {value : Value} (hholds : discipline.holds world context)
    (hgood : discipline.good world value) (haccepts : source.Accepts bind value) :
    discipline.Keeps world (fun _ _ => True) (Step.keep bind value context) :=
  ⟨world, discipline.le_refl world, discipline.keep hholds hgood haccepts, trivial⟩

theorem inFrame {interner : Interner} {frame : CallFrame} {step : Step α}
    (hholds : discipline.holds world context)
    (h : ∀ inner, discipline.holds world inner → discipline.Keeps world post (step inner)) :
    discipline.Keeps world post (Step.inFrame interner frame step context) := by
  simp only [Step.inFrame]
  cases henter : context.enter frame with
  | error failure =>
      obtain ⟨-, rfl⟩ := Context.enter_eq_error.mp henter
      exact ⟨world, discipline.le_refl world, hholds, discipline.overflow hholds⟩
  | ok inner =>
      have hinner := h inner (discipline.enter hholds henter)
      cases hstep : step inner with
      | value result later =>
          rw [hstep] at hinner
          obtain ⟨world', hle, hholds', hresult⟩ := hinner
          simp only [hstep]
          exact ⟨world', hle, discipline.leave hholds', hresult⟩
      | error failure later =>
          rw [hstep] at hinner
          obtain ⟨world', hle, hholds', hfault⟩ := hinner
          simp only [hstep]
          refine ⟨world', hle, discipline.leave hholds', ?_⟩
          rw [CallStack.fault_attach]
          exact hfault
      | unfinished =>
          simp only [hstep]
          trivial

theorem located {interner : Interner} {span : Span} {step : Step α}
    (h : discipline.Keeps world post (step context)) :
    discipline.Keeps world post (Step.located interner span step context) := by
  simp only [Step.located]
  cases hstep : step context with
  | value result later =>
      rw [hstep] at h
      exact h
  | error failure later =>
      rw [hstep] at h
      obtain ⟨world', hle, hholds, hfault⟩ := h
      refine ⟨world', hle, hholds, ?_⟩
      rw [CallStack.fault_attach]
      exact hfault
  | unfinished => trivial

theorem checkType {type : Option DeclaredType} {value : Value}
    (hholds : discipline.holds world context) :
    discipline.Keeps world
      (fun _ _ => ∀ declared, type = some declared → value.conforms declared = true)
      (source.checkType type value context) := by
  cases type with
  | none => exact .pure hholds fun _ h => by cases h
  | some declared =>
      simp only [Source.checkType]
      split
      · rename_i hconforms
        exact .pure hholds fun _ h => Option.some.inj h ▸ hconforms
      · exact .fail hholds fun _ => by simp

end Keeps

/-! ### Operators -/

variable (discipline) in
/-- What an operator may come to: nothing that it makes of values is an overflow. -/
def Answer (world : World) : Except Fault Value → Prop
  | .ok value => discipline.Result world value
  | .error fault => ∀ limit, fault ≠ .stackOverflow limit

theorem answer_number {world' : World} {operand : Float}
    (hoperand : discipline.good world' (.number operand)) (x : Float) :
    discipline.Answer world (.ok (.number x)) := .inr ⟨.inr ⟨world', operand, hoperand⟩, x, rfl⟩

theorem answer_text (s : String) : discipline.Answer world (.ok (.text s)) :=
  .inl (discipline.good_text world s)

theorem answer_boolean (b : Bool) : discipline.Answer world (.ok (.boolean b)) :=
  .inl (discipline.good_boolean world b)

theorem answer_typeMismatch (expected got : String) :
    discipline.Answer world (.error (.typeMismatch expected got)) := fun _ => by simp

theorem answer_binary {world' : World} {left : Value} (hleft : discipline.good world' left)
    (interner : Interner) (op : BinaryOp) (right : Value) :
    discipline.Answer world (op.apply interner left right) := by
  unfold BinaryOp.apply
  split <;> first
    | exact answer_number hleft _
    | exact answer_text _
    | exact answer_boolean _
    | exact answer_typeMismatch _ _

theorem answer_unary {world' : World} {operand : Value} (hoperand : discipline.good world' operand)
    (interner : Interner) (op : UnaryOp) :
    discipline.Answer world (op.apply interner operand) := by
  unfold UnaryOp.apply
  split <;> first
    | exact answer_number hoperand _
    | exact answer_boolean _
    | exact answer_typeMismatch _ _

theorem answer_property {subject : Value} (hsubject : discipline.good world subject)
    (member : NodeId) : discipline.Answer world (source.propertyOf subject member) := by
  simp only [Source.propertyOf]
  cases source.kind member with
  | memberName name =>
      cases subject with
      | inst identity typeName definition properties =>
          simp only
          cases hget : Properties.get? properties name with
          | some value => exact .inl (discipline.good_property hsubject hget)
          | none => exact fun _ => by simp
      | none | text | number | boolean | structureRef | error => exact answer_typeMismatch _ _
  | block | bind | structureDef | property | reference | evaluate | number | text | boolean
  | binary | unary | conditional => exact answer_typeMismatch _ _

theorem keeps_ofExcept {result : Except Fault Value} (hholds : discipline.holds world context)
    (h : discipline.Answer world result) :
    discipline.Keeps world discipline.Result (Step.ofExcept result context) := by
  cases result with
  | ok value => exact .pure hholds h
  | error fault => exact .fail hholds h

/-! ### The evaluator -/

section

variable (hrecur : discipline.Governs recur)
include hrecur

theorem keeps_recur {id : NodeId} (hholds : discipline.holds world context) :
    discipline.Keeps world discipline.good (recur id context) :=
  (hrecur id world context hholds).weaken fun _ _ _ h => h.1

theorem keeps_evalSequence {last : Value} {ids : List NodeId}
    (hholds : discipline.holds world context) (hlast : discipline.good world last) :
    discipline.Keeps world discipline.good (Source.evalSequence recur last ids context) := by
  induction ids generalizing last world context with
  | nil => exact .pure hholds hlast
  | cons id rest ih =>
      exact .bind (keeps_recur hrecur hholds) fun world' value later _ hholds' hvalue =>
        ih hholds' hvalue

theorem keeps_evalEach {ids : List NodeId} (hholds : discipline.holds world context) :
    discipline.Keeps world (fun world' values => ∀ value ∈ values, discipline.good world' value)
      (Source.evalEach recur ids context) := by
  induction ids generalizing world context with
  | nil => exact .pure hholds fun value hvalue => absurd hvalue List.not_mem_nil
  | cons id rest ih =>
      refine .bind (keeps_recur hrecur hholds) fun world' value later _ hholds' hvalue => ?_
      refine .bind (ih hholds') fun world'' values later' hle hholds'' hvalues => ?_
      refine .pure hholds'' fun other hother => ?_
      rcases List.mem_cons.mp hother with rfl | hother
      · exact discipline.good_mono hle hvalue
      · exact hvalues other hother

theorem keeps_inputValue {structureName : Name} {bind : BindNode} {arguments : List Value}
    (hholds : discipline.holds world context)
    (harguments : ∀ argument ∈ arguments, discipline.good world argument) :
    discipline.Keeps world discipline.good
      (source.inputValue recur structureName bind arguments context) := by
  cases arguments with
  | cons argument arguments => exact .pure hholds (harguments argument List.mem_cons_self)
  | nil =>
      cases hvalue : bind.value with
      | some default =>
          simp only [Source.inputValue, hvalue]
          exact keeps_recur hrecur hholds
      | none =>
          simp only [Source.inputValue, hvalue]
          exact .fail hholds fun _ => by simp

/-- Supplying inputs binds each of them to a value in order that it accepts, and sets the properties
to these values. -/
theorem keeps_supplyInputs {structureName : Name} {inputs : List NodeId} {arguments : List Value}
    {bound : List (BindNode × Value)} (hholds : discipline.holds world context)
    (harguments : ∀ argument ∈ arguments, discipline.good world argument)
    (hbound : ∀ entry ∈ bound, discipline.good world entry.2 ∧ entry.1.Accepts entry.2) :
    discipline.Keeps world
      (fun world' properties => ∃ bound' : List (BindNode × Value),
        properties = Properties.ofBinds bound' ∧
        bound'.map Prod.fst = bound.map Prod.fst ++ inputs.filterMap source.bind? ∧
        ∀ entry ∈ bound', discipline.good world' entry.2 ∧ entry.1.Accepts entry.2)
      (source.supplyInputs recur structureName inputs arguments (Properties.ofBinds bound)
        context) := by
  induction inputs generalizing arguments bound world context with
  | nil => exact .pure hholds ⟨bound, rfl, (List.append_nil _).symm, hbound⟩
  | cons input rest ih =>
      cases hbind : source.bind? input with
      | none =>
          rw [Source.supplyInputs_cons_of_none hbind]
          simp only [List.filterMap_cons, hbind]
          exact ih hholds harguments hbound
      | some bind =>
          rw [Source.supplyInputs_cons hbind]
          refine .bind (keeps_inputValue hrecur hholds harguments)
            fun world₁ value later₁ hle₁ hholds₁ hvalue => ?_
          refine .bind (Keeps.checkType hholds₁) fun world₂ _ later₂ hle₂ hholds₂ htype => ?_
          have hvalue₂ := discipline.good_mono hle₂ hvalue
          have haccepts : source.Accepts input value := fun bind' hbind' => by
            cases hbind.symm.trans hbind'
            exact htype
          refine .bind (Keeps.record hholds₂ hvalue₂ haccepts)
            fun world₃ _ later₃ hle₃ hholds₃ _ => ?_
          have hle : discipline.le world world₃ :=
            discipline.le_trans hle₁ (discipline.le_trans hle₂ hle₃)
          rw [← Properties.ofBinds_append_singleton]
          refine (ih hholds₃ (fun argument hargument => ?_) fun entry hentry => ?_).weaken
            fun world' properties _ hproperties => ?_
          · exact discipline.good_mono hle (harguments argument (List.mem_of_mem_tail hargument))
          · rcases List.mem_append.mp hentry with hentry | hentry
            · exact ⟨discipline.good_mono hle (hbound entry hentry).1, (hbound entry hentry).2⟩
            · rw [List.mem_singleton.mp hentry]
              exact ⟨discipline.good_mono hle₃ hvalue₂, htype⟩
          · obtain ⟨bound', rfl, hfst, hgood⟩ := hproperties
            refine ⟨bound', rfl, ?_, hgood⟩
            simp only [hfst, List.map_append, List.map_cons, List.map_nil, List.append_assoc,
              List.singleton_append, List.filterMap_cons, hbind]

/-- A body adds its binds, with the values that these come to. -/
theorem keeps_runBody {statements : List NodeId} {bound : List (BindNode × Value)}
    (hholds : discipline.holds world context)
    (hbound : ∀ entry ∈ bound, discipline.good world entry.2 ∧ entry.1.Accepts entry.2) :
    discipline.Keeps world
      (fun world' properties => ∃ bound' : List (BindNode × Value),
        properties = Properties.ofBinds bound' ∧
        bound'.map Prod.fst = bound.map Prod.fst ++ statements.filterMap source.bind? ∧
        ∀ entry ∈ bound', discipline.good world' entry.2 ∧ entry.1.Accepts entry.2)
      (source.runBody recur statements (Properties.ofBinds bound) context) := by
  induction statements generalizing bound world context with
  | nil => exact .pure hholds ⟨bound, rfl, (List.append_nil _).symm, hbound⟩
  | cons statement rest ih =>
      simp only [Source.runBody]
      refine .bind (hrecur statement world context hholds) fun world₁ value later hle hholds₁
        hvalue => ?_
      have hbound₁ (entry : BindNode × Value) (hentry : entry ∈ bound) :
          discipline.good world₁ entry.2 ∧ entry.1.Accepts entry.2 :=
        ⟨discipline.good_mono hle (hbound entry hentry).1, (hbound entry hentry).2⟩
      cases hbind : source.bind? statement with
      | none =>
          simp only [List.filterMap_cons, hbind]
          exact ih hholds₁ hbound₁
      | some bind =>
          simp only
          rw [← Properties.ofBinds_append_singleton]
          refine (ih hholds₁ fun entry hentry => ?_).weaken
            fun world' properties _ hproperties => ?_
          · rcases List.mem_append.mp hentry with hentry | hentry
            · exact hbound₁ entry hentry
            · rw [List.mem_singleton.mp hentry]
              exact ⟨hvalue.1, hvalue.2 bind hbind⟩
          · obtain ⟨bound', rfl, hfst, hgood⟩ := hproperties
            refine ⟨bound', rfl, ?_, hgood⟩
            simp only [hfst, List.map_append, List.map_cons, List.map_nil, List.append_assoc,
              List.singleton_append, List.filterMap_cons, hbind]

theorem keeps_construct {structureId : NodeId} {arguments : List Value} {callSpan : Span}
    (hholds : discipline.holds world context)
    (harguments : ∀ argument ∈ arguments, discipline.good world argument) :
    discipline.Keeps world discipline.good
      (source.construct recur structureId arguments callSpan context) := by
  simp only [Source.construct]
  cases hstructure : source.structure? structureId with
  | none => exact .fail hholds fun _ => by simp
  | some definition =>
      simp only
      split
      · exact .fail hholds fun _ => by simp
      · refine .inFrame hholds fun inner hinner => ?_
        have hnone (entry : BindNode × Value) (hentry : entry ∈ []) :
            discipline.good world entry.2 ∧ entry.1.Accepts entry.2 :=
          absurd hentry List.not_mem_nil
        refine .bind (keeps_supplyInputs hrecur hinner harguments hnone) fun world₁
          properties later₁ _ hholds₁ hproperties => ?_
        obtain ⟨bound₁, rfl, hfst₁, hgood₁⟩ := hproperties
        refine .bind (keeps_runBody hrecur hholds₁ hgood₁)
          fun world₂ properties later₂ _ hholds₂ hproperties => ?_
        obtain ⟨bound₂, rfl, hfst₂, hgood₂⟩ := hproperties
        have hbinds : bound₂.map Prod.fst = source.propertyBinds definition := by
          rw [hfst₂, hfst₁, List.map_nil, List.nil_append, Source.propertyBinds, Source.slots,
            List.filterMap_append]
        exact discipline.build hholds₂ hstructure hbinds hgood₂

theorem keeps_evalBind {id : NodeId} {bind : BindNode} (hbind : source.bind? id = some bind)
    (hholds : discipline.holds world context) :
    discipline.Keeps world
      (fun world' value => discipline.good world' value ∧ source.Accepts id value)
      (source.evalBind recur id bind context) := by
  simp only [Source.evalBind]
  cases bind.value with
  | none => exact .fail hholds fun _ => by simp
  | some node =>
      refine .bind (keeps_recur hrecur hholds) fun world₁ value later₁ _ hholds₁ hvalue => ?_
      refine .bind (Keeps.checkType hholds₁) fun world₂ _ later₂ hle₂ hholds₂ htype => ?_
      have hvalue₂ := discipline.good_mono hle₂ hvalue
      have haccepts : source.Accepts id value := fun bind' hbind' => by
        cases hbind.symm.trans hbind'
        exact htype
      refine .bind (Keeps.record hholds₂ hvalue₂ haccepts) fun world₃ _ later₃ hle₃ hholds₃ _ => ?_
      exact .pure hholds₃ ⟨discipline.good_mono hle₃ hvalue₂, haccepts⟩

theorem keeps_evalReference (hsource : source.WellFormed) {id : NodeId} {name : Name}
    (hholds : discipline.holds world context) :
    discipline.Keeps world discipline.good (source.evalReference recur id name context) := by
  simp only [Source.evalReference]
  cases hdefinition : source.definitionOf? id name with
  | none => exact .fail hholds fun _ => by simp
  | some definition =>
      obtain ⟨hvisible, hname⟩ := Source.mem_visible_of_definitionOf? hdefinition
      cases definition with
      | structureDef structureId =>
          have hmem := Source.mem_definitionsInScope_iff.mpr hvisible
          obtain ⟨hself, -⟩ := (hsource.mem_definitionsInScope_iff_sees id _).mp hmem
          cases hkind : source.kind structureId with
          | structureDef definition =>
              obtain rfl : definition.name = name := by
                simpa [Source.definedName?, Definition.node, hkind] using hname
              exact .pure hholds (discipline.good_structureRef world hkind)
          | block | bind | property | memberName | reference | evaluate | number | text | boolean
          | binary | unary | conditional =>
              simp [Source.definition?, Definition.node, hkind] at hself
      | bind bind =>
          have hfound : discipline.Keeps world
              (fun world' found => ∀ value, found = some value → discipline.good world' value)
              (Step.lookup? bind context) :=
            ⟨world, discipline.le_refl world, hholds, fun value => discipline.lookup? hholds⟩
          refine .bind hfound fun world₁ found later₁ _ hholds₁ hgood => ?_
          cases found with
          | some value => exact .pure hholds₁ (hgood value rfl)
          | none =>
              refine .bind (hrecur bind world₁ later₁ hholds₁)
                fun world₂ value later₂ _ hholds₂ hvalue => ?_
              exact .bind (.keep hholds₂ hvalue.1 hvalue.2) fun world₃ _ later₃ hle hholds₃ _ =>
                .pure hholds₃ (discipline.good_mono hle hvalue.1)

theorem keeps_evalEvaluate {id callee : NodeId} {arguments : NodeRange}
    (hholds : discipline.holds world context) :
    discipline.Keeps world discipline.good
      (source.evalEvaluate recur id callee arguments context) := by
  refine .bind (keeps_recur hrecur hholds) fun world₁ called later₁ _ hholds₁ _ => ?_
  refine .bind (keeps_evalEach hrecur hholds₁) fun world₂ values later₂ _ hholds₂ hvalues => ?_
  cases called with
  | structureRef structureId name => exact keeps_construct hrecur hholds₂ hvalues
  | none | text | number | boolean | inst | error => exact .fail hholds₂ fun _ => by simp

theorem keeps_evalConditional {condition yes no : NodeId}
    (hholds : discipline.holds world context) :
    discipline.Keeps world discipline.good
      (source.evalConditional recur condition yes no context) := by
  refine .bind (keeps_recur hrecur hholds) fun world₁ value later₁ _ hholds₁ _ => ?_
  cases value with
  | boolean choice => cases choice <;> exact keeps_recur hrecur hholds₁
  | none | text | number | structureRef | inst | error => exact .fail hholds₁ fun _ => by simp

/-- What a node comes to is in order, numbers apart, and the node accepts it. -/
theorem keeps_evalKind (hsource : source.WellFormed) {id : NodeId}
    (hholds : discipline.holds world context) :
    discipline.Keeps world
      (fun world' value => discipline.Result world' value ∧ source.Accepts id value)
      (source.evalKind recur id context) := by
  -- Nodes that are no binds declare no type.
  have unbound {post : World → Value → Prop} {outcome : Outcome Value}
      (hid : source.bind? id = none)
      (hpost : ∀ world' value, post world' value → discipline.Result world' value)
      (h : discipline.Keeps world post outcome) :
      discipline.Keeps world
        (fun world' value => discipline.Result world' value ∧ source.Accepts id value) outcome :=
    h.weaken fun world' value _ hvalue => ⟨hpost world' value hvalue, fun bind hbind => by
      rw [hid] at hbind
      cases hbind⟩
  have good (world' : World) (value : Value) (h : discipline.good world' value) :
      discipline.Result world' value := .inl h
  unfold Source.evalKind
  cases hkind : source.kind id with
  | block statements =>
      refine unbound (by simp [Source.bind?, hkind]) good ?_
      exact .inFrame hholds fun inner hinner =>
        keeps_evalSequence hrecur hinner (discipline.good_none world)
  | bind bind =>
      have hbind : source.bind? id = some bind := by simp [Source.bind?, hkind]
      exact (keeps_evalBind hrecur hbind hholds).weaken fun _ _ _ h => ⟨.inl h.1, h.2⟩
  | structureDef definition =>
      refine unbound (by simp [Source.bind?, hkind]) good ?_
      exact .pure hholds (discipline.good_structureRef world hkind)
  | property subject member =>
      refine unbound (by simp [Source.bind?, hkind]) (fun _ _ h => h) ?_
      exact .bind (keeps_recur hrecur hholds) fun _ value _ _ hholds₁ hvalue =>
        keeps_ofExcept hholds₁ (answer_property hvalue member)
  | memberName name | reference name =>
      refine unbound (by simp [Source.bind?, hkind]) good ?_
      exact keeps_evalReference hrecur hsource hholds
  | evaluate callee arguments =>
      refine unbound (by simp [Source.bind?, hkind]) good ?_
      exact keeps_evalEvaluate hrecur hholds
  | number bits =>
      refine unbound (by simp [Source.bind?, hkind]) (fun _ _ h => h) ?_
      exact .pure hholds (.inr ⟨.inl ⟨id, bits, hkind⟩, _, rfl⟩)
  | text content =>
      refine unbound (by simp [Source.bind?, hkind]) good ?_
      exact .pure hholds (discipline.good_text world _)
  | boolean value =>
      refine unbound (by simp [Source.bind?, hkind]) good ?_
      exact .pure hholds (discipline.good_boolean world _)
  | binary op left right =>
      refine unbound (by simp [Source.bind?, hkind]) (fun _ _ h => h) ?_
      refine .bind (keeps_recur hrecur hholds) fun _ _ _ _ hholds₁ hleft => ?_
      exact .bind (keeps_recur hrecur hholds₁) fun _ _ _ _ hholds₂ _ =>
        keeps_ofExcept hholds₂ (answer_binary hleft source.interner op _)
  | unary op operand =>
      refine unbound (by simp [Source.bind?, hkind]) (fun _ _ h => h) ?_
      exact .bind (keeps_recur hrecur hholds) fun _ _ _ _ hholds₁ hoperand =>
        keeps_ofExcept hholds₁ (answer_unary hoperand source.interner op)
  | conditional condition yes no =>
      refine unbound (by simp [Source.bind?, hkind]) good ?_
      exact keeps_evalConditional hrecur hholds

end

/-- Where all numbers that may come up are in order, every evaluation respects the discipline. -/
theorem governs_eval (hsource : source.WellFormed)
    (hnumber : discipline.Numeric → ∀ world x, discipline.good world (.number x)) (steps : Nat) :
    discipline.Governs (source.eval steps) := by
  induction steps with
  | zero => exact fun _ _ _ _ => trivial
  | succ steps ih =>
      intro id world context hholds
      refine .located ((keeps_evalKind ih hsource hholds).weaken fun world' value _ hvalue => ?_)
      refine ⟨hvalue.1.elim (fun hgood => hgood) fun hx => ?_, hvalue.2⟩
      obtain ⟨hnumeric, x, rfl⟩ := hx
      exact hnumber hnumeric world' x

end Discipline
end Bindery
