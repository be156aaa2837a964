import Bindery.Proofs.Eval.History
import Bindery.Proofs.Tree.Likeness

/-!
Alike evaluations. Sources that are the same up to what stands for each other are evaluated alike,
from contexts that are alike: to values that differ only in names, or to errors with the same fault
at places that stand for each other. Nothing that decides about an evaluation depends on a place,
nor on a name but for which other names it is told apart from.
-/

namespace Bindery
namespace Likeness

section Relations

variable (like : Likeness)

mutual

/-- Values that differ in nothing but names. Errors are no values as long as an evaluation runs. -/
inductive AlikeValue : Value → Value → Prop
  | none : AlikeValue .none .none
  | text {s} : AlikeValue (.text s) (.text s)
  | number {x} : AlikeValue (.number x) (.number x)
  | boolean {b} : AlikeValue (.boolean b) (.boolean b)
  | structureRef {definition name name'} : like.name name name' →
      AlikeValue (.structureRef definition name) (.structureRef definition name')
  | inst {identity typeName typeName' definition properties properties'} :
      like.name typeName typeName' → AlikeProperties properties properties' →
      AlikeValue (.inst identity typeName definition properties)
        (.inst identity typeName' definition properties')

inductive AlikeProperties : List (Name × Value) → List (Name × Value) → Prop
  | nil : AlikeProperties [] []
  | cons {name name' value value' rest rest'} : like.name name name' → AlikeValue value value' →
      AlikeProperties rest rest' →
      AlikeProperties ((name, value) :: rest) ((name', value') :: rest')

end

/-- What operators come to. -/
inductive AlikeComputed : Except Fault Value → Except Fault Value → Prop
  | ok {value value'} : like.AlikeValue value value' → AlikeComputed (.ok value) (.ok value')
  | error {fault} : AlikeComputed (.error fault) (.error fault)

abbrev AlikeFrame : Frame → Frame → Prop :=
  List.Forall₂ fun entry entry' => entry.1 = entry'.1 ∧ like.AlikeValue entry.2 entry'.2

inductive AlikeFrameKind : FrameKind → FrameKind → Prop
  | block : AlikeFrameKind .block .block
  | construct {definition name name'} : like.name name name' →
      AlikeFrameKind (.construct definition name) (.construct definition name')

structure AlikeCallFrame (frame frame' : CallFrame) : Prop where
  kind : like.AlikeFrameKind frame.kind frame'.kind
  callSpan : Option.Rel like.AlikeSpan frame.callSpan frame'.callSpan

structure AlikeCallStack (stack stack' : CallStack) : Prop where
  frames : List.Forall₂ like.AlikeCallFrame stack.frames stack'.frames
  maxDepth : stack.maxDepth = stack'.maxDepth

structure AlikeContext (context context' : Context) : Prop where
  callStack : like.AlikeCallStack context.callStack context'.callStack
  frames : List.Forall₂ like.AlikeFrame context.frames context'.frames
  demanded : like.AlikeFrame context.demanded context'.demanded
  owner : context.owner = context'.owner
  built : context.built = context'.built

structure AlikeBacktraceFrame (frame frame' : BacktraceFrame) : Prop where
  name : frame.name = frame'.name
  span : Option.Rel like.AlikeSpan frame.span frame'.span

structure AlikeError (error error' : EvalError) : Prop where
  fault : error.fault = error'.fault
  span : Option.Rel like.AlikeSpan error.span error'.span
  backtrace : Option.Rel (List.Forall₂ like.AlikeBacktraceFrame) error.backtrace error'.backtrace

inductive AlikeOutcome {α β : Type} (R : α → β → Prop) : Outcome α → Outcome β → Prop
  | value {result result' context context'} : R result result' →
      like.AlikeContext context context' →
      AlikeOutcome R (.value result context) (.value result' context')
  | error {error error' context context'} : like.AlikeError error error' →
      like.AlikeContext context context' →
      AlikeOutcome R (.error error context) (.error error' context')
  | unfinished : AlikeOutcome R .unfinished .unfinished

/-- What nodes are evaluated to, errors included. -/
inductive AlikeAnswer : Value → Value → Prop
  | value {value value'} : like.AlikeValue value value' → AlikeAnswer value value'
  | error {error error'} : like.AlikeError error error' → AlikeAnswer (.error error) (.error error')

/-- From alike contexts the steps come to alike outcomes. -/
def AlikeStep {α β : Type} (R : α → β → Prop) (step : Step α) (step' : Step β) : Prop :=
  ∀ context context', like.AlikeContext context context' →
    like.AlikeOutcome R (step context) (step' context')

end Relations

variable {like : Likeness} {interner interner' : Interner}

/-! ### Values -/

section Values

variable (hlegible : like.Legible interner interner')
include hlegible

theorem Legible.beq_eq {name name' other other' : Name} (h : like.name name name')
    (hother : like.name other other') : (name == other) = (name' == other') := by
  rw [Bool.eq_iff_iff, beq_iff_eq, beq_iff_eq]
  exact hlegible.eq_iff h hother

theorem AlikeType.describe_eq {type type' : DeclaredType} (h : like.AlikeType type type') :
    type.describe interner = type'.describe interner' := by
  cases h with
  | text | number | boolean => rfl
  | named hname => exact hlegible.lookup hname

namespace AlikeValue

variable {value value' other other' : Value}

theorem typeName_eq (h : like.AlikeValue value value') :
    value.typeName interner = value'.typeName interner' := by
  cases h with
  | none | text | number | boolean => rfl
  | structureRef hname | inst hname => simp only [Value.typeName, hlegible.lookup hname]

theorem conforms_eq (h : like.AlikeValue value value') {type type' : DeclaredType}
    (htype : like.AlikeType type type') : value.conforms type = value'.conforms type' := by
  cases h with
  | none | text | number | boolean | structureRef => cases htype <;> rfl
  | inst hname =>
      cases htype with
      | text | number | boolean => rfl
      | named hnamed => exact hlegible.beq_eq hname hnamed

end AlikeValue

mutual

theorem AlikeValue.display_eq : {value value' : Value} → like.AlikeValue value value' →
    value.display interner = value'.display interner'
  | _, _, .none | _, _, .text | _, _, .number | _, _, .boolean => rfl
  | _, _, .structureRef hname => by simp only [Value.display, hlegible.lookup hname]
  | _, _, .inst hname hproperties => by
      simp only [Value.display, hlegible.lookup hname, hproperties.display_eq]

theorem AlikeProperties.display_eq : {properties properties' : List (Name × Value)} →
    like.AlikeProperties properties properties' →
    Value.displayProperties interner properties = Value.displayProperties interner' properties'
  | _, _, .nil => rfl
  | _, _, .cons hname hvalue hrest => by
      simp only [Value.displayProperties, hlegible.lookup hname, hvalue.display_eq,
        hrest.display_eq]

end

mutual

/-- Alike values compare alike. -/
theorem AlikeValue.beq_eq : {value value' other other' : Value} → like.AlikeValue value value' →
    like.AlikeValue other other' → value.beq other = value'.beq other'
  | _, _, _, _, .inst _ hproperties, h => by
      cases h with
      | inst _ hothers => simp only [Value.beq, hproperties.beq_eq hothers]
      | none | text | number | boolean | structureRef => rfl
  | _, _, _, _, .structureRef hname, h => by
      cases h with
      | structureRef hother => simp only [Value.beq, hlegible.beq_eq hname hother]
      | none | text | number | boolean | inst => rfl
  | _, _, _, _, .none, h | _, _, _, _, .text, h | _, _, _, _, .number, h
  | _, _, _, _, .boolean, h => by
      cases h <;> rfl

theorem AlikeProperties.beq_eq : {properties properties' others others' : List (Name × Value)} →
    like.AlikeProperties properties properties' → like.AlikeProperties others others' →
    Value.propertiesBeq properties others = Value.propertiesBeq properties' others'
  | _, _, _, _, .nil, h => by cases h <;> rfl
  | _, _, _, _, .cons hname hvalue hrest, h => by
      cases h with
      | nil => rfl
      | cons hname' hvalue' hrest' =>
          simp only [Value.propertiesBeq, hlegible.beq_eq hname hname', hvalue.beq_eq hvalue',
            hrest.beq_eq hrest']

end

theorem AlikeValue.unary {value value' : Value} (h : like.AlikeValue value value') (op : UnaryOp) :
    like.AlikeComputed (op.apply interner value) (op.apply interner' value') := by
  have htype := h.typeName_eq hlegible
  cases h with
  | number => cases op <;> first | exact .ok .number | exact .error
  | boolean => cases op <;> first | exact .ok .boolean | exact .error
  | none | text | structureRef | inst =>
      cases op <;> simp only [UnaryOp.apply, htype] <;> exact .error

theorem AlikeValue.binary {value value' other other' : Value} (h : like.AlikeValue value value')
    (hother : like.AlikeValue other other') (op : BinaryOp) :
    like.AlikeComputed (op.apply interner value other) (op.apply interner' value' other') := by
  have hbeq : (value == other) = (value' == other') := h.beq_eq hlegible hother
  have htype := h.typeName_eq hlegible
  have htype' := hother.typeName_eq hlegible
  have hmismatch {expected got got' : String} (hgot : got = got') : like.AlikeComputed
      (.error (.typeMismatch expected got)) (.error (.typeMismatch expected got')) := hgot ▸ .error
  cases op with
  | equal =>
      simp only [BinaryOp.apply, hbeq]
      exact .ok .boolean
  | notEqual =>
      simp only [BinaryOp.apply, bne, hbeq]
      exact .ok .boolean
  | add | subtract | multiply | divide | less | lessEqual | greater | greaterEqual | and | or =>
      cases h <;> first
        | exact hmismatch (by rw [htype, htype'])
        | (cases hother <;> first
            | exact hmismatch (by rw [htype, htype'])
            | exact .ok .number
            | exact .ok .text
            | exact .ok .boolean)

namespace AlikeProperties

variable {properties properties' : Properties} {name name' : Name}

theorem set (h : like.AlikeProperties properties properties') (hname : like.name name name')
    {value value' : Value} (hvalue : like.AlikeValue value value') :
    like.AlikeProperties (properties.set name value) (properties'.set name' value') := by
  induction properties generalizing properties' with
  | nil =>
      cases h
      exact .cons hname hvalue .nil
  | cons entry rest ih =>
      cases h with
      | cons hother hold hrest =>
          simp only [Properties.set, hlegible.eq_iff hother hname]
          split
          · exact .cons hname hvalue hrest
          · exact .cons hother hold (ih hrest)

theorem get? (h : like.AlikeProperties properties properties') (hname : like.name name name') :
    Option.Rel like.AlikeValue (properties.get? name) (properties'.get? name') := by
  induction properties generalizing properties' with
  | nil =>
      cases h
      exact .none
  | cons entry rest ih =>
      cases h with
      | cons hother hold hrest =>
          simp only [Properties.get?_cons, hlegible.eq_iff hname hother]
          split
          · exact .some hold
          · exact ih hrest

end AlikeProperties

end Values

/-! ### Contexts -/

theorem AlikeFrame.lookup {frame frame' : Frame} (h : like.AlikeFrame frame frame')
    (bind : NodeId) :
    Option.Rel like.AlikeValue (frame.lookup bind) (frame'.lookup bind) := by
  induction h with
  | nil => exact .none
  | @cons entry entry' rest rest' hentry _ ih =>
      obtain ⟨key, value⟩ := entry
      obtain ⟨key', value'⟩ := entry'
      obtain ⟨rfl, hvalue⟩ := hentry
      simp only [List.lookup_cons]
      cases bind == key with
      | true => exact .some hvalue
      | false => exact ih

namespace AlikeCallStack

variable {stack stack' : CallStack}

theorem push (h : like.AlikeCallStack stack stack') {frame frame' : CallFrame}
    (hframe : like.AlikeCallFrame frame frame') :
    (∃ pushed pushed', stack.push frame = .ok pushed ∧ stack'.push frame' = .ok pushed' ∧
        like.AlikeCallStack pushed pushed') ∨
      ∃ error, stack.push frame = .error error ∧ stack'.push frame' = .error error ∧
        error.span = none ∧ error.backtrace = none := by
  have hdepth : stack.depth = stack'.depth := h.frames.length_eq
  simp only [CallStack.push, hdepth, h.maxDepth]
  split
  · exact .inl ⟨_, _, rfl, rfl, .cons hframe h.frames, rfl⟩
  · exact .inr ⟨_, rfl, rfl, rfl, rfl⟩

theorem pop (h : like.AlikeCallStack stack stack') :
    like.AlikeCallStack stack.pop stack'.pop := by
  refine ⟨?_, h.maxDepth⟩
  have hframes := h.frames
  simp only [CallStack.pop]
  generalize stack.frames = frames, stack'.frames = frames' at hframes
  cases hframes with
  | nil => exact .nil
  | cons _ hrest => exact hrest

theorem attach (h : like.AlikeCallStack stack stack') (hlegible : like.Legible interner interner')
    {error error' : EvalError} (herror : like.AlikeError error error') :
    like.AlikeError (stack.attach error interner) (stack'.attach error' interner') := by
  have hempty : stack.isEmpty = stack'.isEmpty := by
    have hframes := h.frames
    simp only [CallStack.isEmpty]
    generalize stack.frames = frames, stack'.frames = frames' at hframes
    cases hframes <;> rfl
  have hsome : error.backtrace.isSome = error'.backtrace.isSome := by
    have hbacktrace := herror.backtrace
    generalize error.backtrace = trace, error'.backtrace = trace' at hbacktrace
    cases hbacktrace <;> rfl
  simp only [CallStack.attach, hempty, hsome]
  split
  · exact herror
  · refine ⟨herror.fault, herror.span, .some ?_⟩
    refine List.rel_map (R := like.AlikeCallFrame)
      (fun frame frame' hframe => ⟨?_, hframe.callSpan⟩) h.frames
    have hkind := hframe.kind
    simp only [CallFrame.toBacktraceFrame]
    generalize frame.kind = kind, frame'.kind = kind' at hkind
    cases hkind with
    | block => rfl
    | construct hname => exact hlegible.lookup hname

end AlikeCallStack

namespace AlikeContext

variable {context context' : Context}

theorem fresh (limits : Limits) (owner : Nat) :
    like.AlikeContext (.fresh limits owner) (.fresh limits owner) :=
  ⟨⟨.nil, rfl⟩, .nil, .nil, rfl, rfl⟩

theorem lookup? (h : like.AlikeContext context context') (bind : NodeId) :
    Option.Rel like.AlikeValue (context.lookup? bind) (context'.lookup? bind) := by
  have hframes := h.frames
  simp only [Context.lookup?]
  generalize context.frames = frames, context'.frames = frames' at hframes
  induction hframes with
  | nil => exact AlikeFrame.lookup h.demanded bind
  | @cons frame frame' rest rest' hframe _ ih =>
      have hfound := AlikeFrame.lookup hframe bind
      simp only [List.findSome?_cons]
      generalize frame.lookup bind = found, frame'.lookup bind = found' at hfound
      cases hfound with
      | none => exact ih
      | some hvalue => exact .some hvalue

theorem keep (h : like.AlikeContext context context') (bind : NodeId) {value value' : Value}
    (hvalue : like.AlikeValue value value') :
    like.AlikeContext (context.keep bind value) (context'.keep bind value') :=
  ⟨h.callStack, h.frames, .cons ⟨rfl, hvalue⟩ h.demanded, h.owner, h.built⟩

theorem record (h : like.AlikeContext context context') (bind : NodeId) {value value' : Value}
    (hvalue : like.AlikeValue value value') :
    like.AlikeContext (context.record bind value) (context'.record bind value') := by
  have hkeep := h.keep bind hvalue
  obtain ⟨hstack, hframes, hdemanded, howner, hbuilt⟩ := h
  simp only [Context.record]
  generalize hleft : context.frames = frames, hright : context'.frames = frames' at hframes
  cases hframes with
  | nil => exact hkeep
  | cons hframe houter =>
      exact ⟨hstack, .cons (.cons ⟨rfl, hvalue⟩ hframe) houter, hdemanded, howner, hbuilt⟩

theorem leave (h : like.AlikeContext context context') :
    like.AlikeContext context.leave context'.leave := by
  refine ⟨h.callStack.pop, ?_, h.demanded, h.owner, h.built⟩
  have hframes := h.frames
  simp only [Context.leave]
  generalize context.frames = frames, context'.frames = frames' at hframes
  cases hframes with
  | nil => exact .nil
  | cons _ hrest => exact hrest

end AlikeContext

/-! ### Steps -/

namespace AlikeStep

variable {α β γ δ : Type} {R : α → β → Prop} {S : γ → δ → Prop}

theorem pure {result : α} {result' : β} (h : R result result') :
    like.AlikeStep R (Pure.pure result) (Pure.pure result') :=
  fun _ _ hcontext => .value h hcontext

theorem fail (fault : Fault) : like.AlikeStep R (Step.fail fault) (Step.fail fault) :=
  fun _ _ hcontext => .error ⟨rfl, .none, .none⟩ hcontext

theorem bind {first : Step α} {first' : Step β} {next : α → Step γ} {next' : β → Step δ}
    (hfirst : like.AlikeStep R first first')
    (hnext : ∀ result result', R result result' → like.AlikeStep S (next result) (next' result')) :
    like.AlikeStep S (first >>= next) (first' >>= next') := by
  intro context context' hcontext
  have houtcome := hfirst context context' hcontext
  show like.AlikeOutcome S (Step.bind first next context) (Step.bind first' next' context')
  simp only [Step.bind]
  generalize first context = outcome, first' context' = outcome' at houtcome
  cases houtcome with
  | value hresult hlater => exact hnext _ _ hresult _ _ hlater
  | error herror hlater => exact .error herror hlater
  | unfinished => exact .unfinished

theorem lookup? (bind : NodeId) :
    like.AlikeStep (Option.Rel like.AlikeValue) (Step.lookup? bind) (Step.lookup? bind) :=
  fun _ _ hcontext => .value (hcontext.lookup? bind) hcontext

theorem record (bind : NodeId) {value value' : Value} (h : like.AlikeValue value value') :
    like.AlikeStep (fun _ _ => True) (Step.record bind value) (Step.record bind value') :=
  fun _ _ hcontext => .value trivial (hcontext.record bind h)

theorem keep (bind : NodeId) {value value' : Value} (h : like.AlikeValue value value') :
    like.AlikeStep (fun _ _ => True) (Step.keep bind value) (Step.keep bind value') :=
  fun _ _ hcontext => .value trivial (hcontext.keep bind h)

theorem build {typeName typeName' : Name} (hname : like.name typeName typeName')
    (definition : NodeId) {properties properties' : Properties}
    (h : like.AlikeProperties properties properties') :
    like.AlikeStep like.AlikeValue (Step.build typeName definition properties)
      (Step.build typeName' definition properties') := by
  intro context context' hcontext
  have hidentity : context.nextIdentity = context'.nextIdentity := by
    rw [Context.nextIdentity, Context.nextIdentity, hcontext.owner, hcontext.built]
  simp only [Step.build, hidentity]
  exact .value (.inst hname h) ⟨hcontext.callStack, hcontext.frames, hcontext.demanded,
    hcontext.owner, congrArg (· + 1) hcontext.built⟩

theorem ofExcept {result result' : Except Fault Value} (h : like.AlikeComputed result result') :
    like.AlikeStep like.AlikeValue (Step.ofExcept result) (Step.ofExcept result') := by
  cases h with
  | ok hvalue => exact .pure hvalue
  | error => exact .fail _

section Located

variable (hlegible : like.Legible interner interner') {step : Step α} {step' : Step β}
  (h : like.AlikeStep R step step')
include hlegible h

theorem located {span span' : Span} (hspan : like.AlikeSpan span span') :
    like.AlikeStep R (Step.located interner span step) (Step.located interner' span' step') := by
  intro context context' hcontext
  have houtcome := h context context' hcontext
  simp only [Step.located]
  generalize step context = outcome, step' context' = outcome' at houtcome
  cases houtcome with
  | value hresult hlater => exact .value hresult hlater
  | unfinished => exact .unfinished
  | @error error error' _ _ herror hlater =>
      refine .error (hlater.callStack.attach hlegible ⟨herror.fault, ?_, herror.backtrace⟩) hlater
      have hplace := herror.span
      simp only [EvalError.orSpan]
      generalize error.span = place, error'.span = place' at hplace
      cases hplace with
      | none => exact .some hspan
      | some hplace => exact .some hplace

theorem inFrame {frame frame' : CallFrame} (hframe : like.AlikeCallFrame frame frame') :
    like.AlikeStep R (Step.inFrame interner frame step) (Step.inFrame interner' frame' step') := by
  intro context context' hcontext
  simp only [Step.inFrame, Context.enter]
  rcases hcontext.callStack.push hframe with
    ⟨pushed, pushed', hpush, hpush', hpushed⟩ | ⟨error, hpush, hpush', hspan, htrace⟩
  · have hinner : like.AlikeContext
        { context with callStack := pushed, frames := [] :: context.frames }
        { context' with callStack := pushed', frames := [] :: context'.frames } :=
      ⟨hpushed, .cons .nil hcontext.frames, hcontext.demanded, hcontext.owner, hcontext.built⟩
    have houtcome := h _ _ hinner
    simp only [hpush, hpush', Except.map]
    generalize step _ = outcome, step' _ = outcome' at houtcome
    cases houtcome with
    | value hresult hlater => exact .value hresult hlater.leave
    | error herror hlater => exact .error (hlater.callStack.attach hlegible herror) hlater.leave
    | unfinished => exact .unfinished
  · simp only [hpush, hpush', Except.map]
    exact .error ⟨rfl, hspan ▸ .none, htrace ▸ .none⟩ hcontext

end Located

end AlikeStep

/-! ### Nodes -/

namespace AlikeSource

variable {source source' : Source}

theorem bind? (h : like.AlikeSource source source') (id : NodeId) :
    Option.Rel (fun bind bind' => like.name bind.name bind'.name ∧
      Option.Rel like.AlikeType bind.type bind'.type ∧ bind.value = bind'.value)
      (source.bind? id) (source'.bind? id) := by
  have hkind := h.nodeKind id
  simp only [Source.bind?]
  generalize source.kind id = kind, source'.kind id = kind' at hkind
  cases hkind with
  | bind hname htype => exact .some ⟨hname, htype, rfl⟩
  | block | structureDef | property | memberName | reference | evaluate | number | text | boolean
  | binary | unary | conditional => exact .none

theorem structure? (h : like.AlikeSource source source') (id : NodeId) :
    Option.Rel (fun definition definition' => like.name definition.name definition'.name ∧
      definition.inputs = definition'.inputs ∧ definition.body = definition'.body)
      (source.structure? id) (source'.structure? id) := by
  have hkind := h.nodeKind id
  simp only [Source.structure?]
  generalize source.kind id = kind, source'.kind id = kind' at hkind
  cases hkind with
  | structureDef hname => exact .some ⟨hname, rfl, rfl⟩
  | block | bind | property | memberName | reference | evaluate | number | text | boolean
  | binary | unary | conditional => exact .none

theorem describe_eq (h : like.AlikeSource source source') (id : NodeId) :
    (source.kind id).describe = (source'.kind id).describe := by
  have hkind := h.nodeKind id
  generalize source.kind id = kind, source'.kind id = kind' at hkind
  cases hkind <;> rfl

theorem ownerName_eq (h : like.AlikeSource source source') (id : NodeId) :
    source.ownerName id = source'.ownerName id := by
  simp only [Source.ownerName, h.parent?_eq]
  cases source'.parent? id with
  | none => rfl
  | some parent =>
      have hdefined := h.definedName? parent
      simp only [Option.bind_some]
      generalize source.definedName? parent = name, source'.definedName? parent = name' at hdefined
      cases hdefined with
      | none => rfl
      | some hname => exact h.nameText_eq hname

theorem bodyStatements_eq (h : like.AlikeSource source source')
    {definition definition' : StructureNode} (hbody : definition.body = definition'.body) :
    source.bodyStatements definition = source'.bodyStatements definition' := by
  simp only [Source.bodyStatements, hbody]
  cases definition'.body with
  | none => rfl
  | some body =>
      have hkind := h.nodeKind body
      simp only [Option.map_some]
      generalize source.kind body = kind, source'.kind body = kind' at hkind
      cases hkind with
      | block => exact h.list_eq _
      | bind | structureDef | property | memberName | reference | evaluate | number | text
      | boolean | binary | unary | conditional => rfl

theorem propertyOf (h : like.AlikeSource source source') {subject subject' : Value}
    (hsubject : like.AlikeValue subject subject') (member : NodeId) :
    like.AlikeComputed (source.propertyOf subject member) (source'.propertyOf subject' member) := by
  have hkind := h.nodeKind member
  have htype := hsubject.typeName_eq h.legible
  simp only [Source.propertyOf]
  generalize source.kind member = kind, source'.kind member = kind' at hkind
  cases hkind with
  | @memberName name name' hname =>
      cases hsubject with
      | @inst _ _ _ _ properties properties' htypeName hproperties =>
          have hfound := hproperties.get? h.legible hname
          simp only [h.nameText_eq htypeName, h.nameText_eq hname]
          generalize Properties.get? properties name = found,
            Properties.get? properties' name' = found' at hfound
          cases hfound with
          | none => exact .error
          | some hvalue => exact .ok hvalue
      | none | text | number | boolean | structureRef =>
          simp only [htype]
          exact .error
  | block | bind | structureDef | property | reference | evaluate | number | text | boolean
  | binary | unary | conditional => exact .error

section

variable (h : like.AlikeSource source source') {recur recur' : NodeId → Step Value}
  (hrecur : ∀ node, like.AlikeStep like.AlikeValue (recur node) (recur' node))
include h

theorem checkType {type type' : Option DeclaredType} (htype : Option.Rel like.AlikeType type type')
    {value value' : Value} (hvalue : like.AlikeValue value value') :
    like.AlikeStep (fun _ _ => True) (source.checkType type value)
      (source'.checkType type' value') := by
  cases htype with
  | none => exact .pure trivial
  | some htype =>
      simp only [Source.checkType, hvalue.conforms_eq h.legible htype,
        htype.describe_eq h.legible, hvalue.typeName_eq h.legible]
      split
      · exact .pure trivial
      · exact .fail _

include hrecur

omit h in
theorem evalSequence {last last' : Value} (hlast : like.AlikeValue last last')
    (ids : List NodeId) :
    like.AlikeStep like.AlikeValue (Source.evalSequence recur last ids)
      (Source.evalSequence recur' last' ids) := by
  induction ids generalizing last last' with
  | nil => exact .pure hlast
  | cons id rest ih => exact .bind (hrecur id) fun _ _ hvalue => ih hvalue

omit h in
theorem evalEach (ids : List NodeId) :
    like.AlikeStep (List.Forall₂ like.AlikeValue) (Source.evalEach recur ids)
      (Source.evalEach recur' ids) := by
  induction ids with
  | nil => exact .pure .nil
  | cons id rest ih =>
      exact .bind (hrecur id) fun _ _ hvalue => .bind ih fun _ _ hvalues =>
        .pure (.cons hvalue hvalues)

theorem inputValue {structureName structureName' : Name}
    (hstructure : like.name structureName structureName') {bind bind' : BindNode}
    (hname : like.name bind.name bind'.name) (hdefault : bind.value = bind'.value)
    {arguments arguments' : List Value}
    (harguments : List.Forall₂ like.AlikeValue arguments arguments') :
    like.AlikeStep like.AlikeValue (source.inputValue recur structureName bind arguments)
      (source'.inputValue recur' structureName' bind' arguments') := by
  cases harguments with
  | cons hargument _ => exact .pure hargument
  | nil =>
      simp only [Source.inputValue, hdefault]
      cases bind'.value with
      | some default => exact hrecur default
      | none =>
          simp only [h.nameText_eq hstructure, h.nameText_eq hname]
          exact .fail _

theorem supplyInputs {structureName structureName' : Name}
    (hstructure : like.name structureName structureName') (inputs : List NodeId)
    {arguments arguments' : List Value}
    (harguments : List.Forall₂ like.AlikeValue arguments arguments')
    {properties properties' : Properties}
    (hproperties : like.AlikeProperties properties properties') :
    like.AlikeStep like.AlikeProperties
      (source.supplyInputs recur structureName inputs arguments properties)
      (source'.supplyInputs recur' structureName' inputs arguments' properties') := by
  induction inputs generalizing arguments arguments' properties properties' with
  | nil => exact .pure hproperties
  | cons input rest ih =>
      have hbind := h.bind? input
      cases hleft : source.bind? input with
      | none =>
          cases hright : source'.bind? input with
          | none =>
              rw [Source.supplyInputs_cons_of_none hleft, Source.supplyInputs_cons_of_none hright]
              exact ih harguments hproperties
          | some bind' =>
              rw [hleft, hright] at hbind
              cases hbind
      | some bind =>
          cases hright : source'.bind? input with
          | none =>
              rw [hleft, hright] at hbind
              cases hbind
          | some bind' =>
              rw [hleft, hright] at hbind
              cases hbind with
              | some hbind =>
                  obtain ⟨hname, htype, hdefault⟩ := hbind
                  rw [Source.supplyInputs_cons hleft, Source.supplyInputs_cons hright]
                  refine .bind (h.inputValue hrecur hstructure hname hdefault harguments)
                    fun _ _ hvalue => ?_
                  refine .bind (h.checkType htype hvalue) fun _ _ _ => ?_
                  refine .bind (.record input hvalue) fun _ _ _ => ?_
                  refine ih ?_ (hproperties.set h.legible hname hvalue)
                  cases harguments with
                  | nil => exact .nil
                  | cons _ hrest => exact hrest

theorem runBody (statements : List NodeId) {properties properties' : Properties}
    (hproperties : like.AlikeProperties properties properties') :
    like.AlikeStep like.AlikeProperties (source.runBody recur statements properties)
      (source'.runBody recur' statements properties') := by
  induction statements generalizing properties properties' with
  | nil => exact .pure hproperties
  | cons statement rest ih =>
      refine .bind (hrecur statement) fun value value' hvalue => ?_
      have hbind := h.bind? statement
      generalize source.bind? statement = found, source'.bind? statement = found' at hbind
      cases hbind with
      | none => exact ih hproperties
      | some hbind => exact ih (hproperties.set h.legible hbind.1 hvalue)

theorem construct (id : NodeId) {arguments arguments' : List Value}
    (harguments : List.Forall₂ like.AlikeValue arguments arguments') {callSpan callSpan' : Span}
    (hspan : like.AlikeSpan callSpan callSpan') :
    like.AlikeStep like.AlikeValue (source.construct recur id arguments callSpan)
      (source'.construct recur' id arguments' callSpan') := by
  have hdefined := h.structure? id
  simp only [Source.construct, h.describe_eq id]
  generalize source.structure? id = found, source'.structure? id = found' at hdefined
  cases hdefined with
  | none => exact .fail _
  | some hdefinition =>
      obtain ⟨hname, hinputs, hbody⟩ := hdefinition
      simp only [hinputs, h.list_eq, harguments.length_eq, h.nameText_eq hname,
        h.bodyStatements_eq hbody]
      split
      · exact .fail _
      · refine .inFrame h.legible ?_ ⟨.construct hname, .some hspan⟩
        exact .bind (h.supplyInputs hrecur hname _ harguments .nil) fun _ _ hproperties =>
          .bind (h.runBody hrecur _ hproperties) fun _ _ hproperties =>
            .build hname id hproperties

theorem evalEvaluate (id callee : NodeId) (arguments : NodeRange) :
    like.AlikeStep like.AlikeValue (source.evalEvaluate recur id callee arguments)
      (source'.evalEvaluate recur' id callee arguments) := by
  simp only [Source.evalEvaluate, h.list_eq]
  refine .bind (hrecur callee) fun called called' hcalled =>
    .bind (evalEach hrecur _) fun values values' hvalues => ?_
  have htype := hcalled.typeName_eq h.legible
  cases hcalled with
  | structureRef => exact h.construct hrecur _ hvalues (h.span id)
  | none | text | number | boolean | inst =>
      simp only [htype]
      exact .fail _

theorem evalReference (id : NodeId) {name name' : Name} (hname : like.name name name') :
    like.AlikeStep like.AlikeValue (source.evalReference recur id name)
      (source'.evalReference recur' id name') := by
  simp only [Source.evalReference, h.definitionOf?_eq id hname, h.nameText_eq hname]
  cases source'.definitionOf? id name' with
  | none => exact .fail _
  | some definition =>
      cases definition with
      | structureDef definition => exact .pure (.structureRef hname)
      | bind bind =>
          refine .bind (.lookup? bind) fun found found' hfound => ?_
          cases hfound with
          | some hvalue => exact .pure hvalue
          | none =>
              exact .bind (hrecur bind) fun _ _ hvalue => .bind (.keep bind hvalue) fun _ _ _ =>
                .pure hvalue

theorem evalKind (id : NodeId) :
    like.AlikeStep like.AlikeValue (source.evalKind recur id) (source'.evalKind recur' id) := by
  have hkind := h.nodeKind id
  unfold Source.evalKind
  generalize source.kind id = kind, source'.kind id = kind' at hkind
  cases hkind with
  | block =>
      simp only [Source.evalBlock, h.list_eq]
      exact .inFrame h.legible (evalSequence hrecur .none _) ⟨.block, .some (h.span id)⟩
  | @bind name name' type type' value hname htype =>
      simp only [Source.evalBind]
      cases value with
      | none =>
          simp only [h.ownerName_eq, h.nameText_eq hname]
          exact .fail _
      | some node =>
          exact .bind (hrecur node) fun _ _ hvalue => .bind (h.checkType htype hvalue) fun _ _ _ =>
            .bind (.record id hvalue) fun _ _ _ => .pure hvalue
  | structureDef hname => exact .pure (.structureRef hname)
  | property =>
      exact .bind (hrecur _) fun _ _ hsubject => .ofExcept (h.propertyOf hsubject _)
  | memberName hname | reference hname => exact h.evalReference hrecur id hname
  | evaluate => exact h.evalEvaluate hrecur id _ _
  | number => exact .pure .number
  | text hcontent =>
      simp only [h.nameText_eq hcontent]
      exact .pure .text
  | boolean => exact .pure .boolean
  | binary =>
      exact .bind (hrecur _) fun _ _ hleft => .bind (hrecur _) fun _ _ hright =>
        .ofExcept (hleft.binary h.legible hright _)
  | unary => exact .bind (hrecur _) fun _ _ hoperand => .ofExcept (hoperand.unary h.legible _)
  | conditional =>
      refine .bind (hrecur _) fun condition condition' hcondition => ?_
      have htype := hcondition.typeName_eq h.legible
      cases hcondition with
      | @boolean choice => cases choice <;> exact hrecur _
      | none | text | number | structureRef | inst =>
          simp only [htype]
          exact .fail _

end

/-- Alike sources are evaluated alike at every node. -/
theorem eval (h : like.AlikeSource source source') (steps : Nat) (id : NodeId) :
    like.AlikeStep like.AlikeValue (source.eval steps id) (source'.eval steps id) := by
  induction steps generalizing id with
  | zero => exact fun _ _ _ => .unfinished
  | succ steps ih => exact .located h.legible (h.evalKind ih id) (h.span id)

/-- Evaluations come to alike answers and leave alike contexts. -/
theorem evaluate (h : like.AlikeSource source source') (id : NodeId) {context context' : Context}
    (hcontext : like.AlikeContext context context') :
    like.AlikeAnswer (source.evaluate id context).1 (source'.evaluate id context').1 ∧
      like.AlikeContext (source.evaluate id context).2 (source'.evaluate id context').2 := by
  have hdepth : context.depth = context'.depth := hcontext.callStack.frames.length_eq
  have hlimit : context.maxDepth = context'.maxDepth := hcontext.callStack.maxDepth
  have hbound : source.stepBound context = source'.stepBound context' := by
    rw [Source.stepBound, Source.stepBound, hdepth, hlimit, h.arena.size_eq]
  have houtcome := h.eval (source'.stepBound context') id context context' hcontext
  simp only [Source.evaluate, hbound, hlimit]
  generalize source.eval _ id context = outcome, source'.eval _ id context' = outcome' at houtcome
  cases houtcome with
  | value hvalue hlater => exact ⟨.value hvalue, hlater⟩
  | error herror hlater => exact ⟨.error herror, hlater⟩
  | unfinished => exact ⟨.error ⟨rfl, .none, .none⟩, hcontext⟩

theorem used (h : like.AlikeSource source source') (history : List NodeId)
    {context context' : Context} (hcontext : like.AlikeContext context context') :
    like.AlikeContext (source.used history context) (source'.used history context') := by
  induction history generalizing context context' with
  | nil => exact hcontext
  | cons id history ih => exact ih (h.evaluate id hcontext).2

end AlikeSource

section Answers

variable {value value' : Value} (h : like.AlikeAnswer value value')
  (hlegible : like.Legible interner interner')
include h hlegible

theorem AlikeAnswer.display_eq : value.display interner = value'.display interner' := by
  cases h with
  | value h => exact h.display_eq hlegible
  | error h => simp only [Value.display, EvalError.text, h.fault]

theorem AlikeAnswer.typeName_eq : value.typeName interner = value'.typeName interner' := by
  cases h with
  | value h => exact h.typeName_eq hlegible
  | error => rfl

end Answers

end Likeness
end Bindery
