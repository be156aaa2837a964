import Bindery.Proofs.Eval.Alike
import Bindery.Proofs.Eval.Calls

/-!
What the owner of a context is called does not matter. If owners are renamed, so that no two of them
become one, every evaluation runs as before, with the identities of its instances renamed.
-/

namespace Bindery

def Identity.renamed (σ : Nat → Nat) (identity : Identity) : Identity :=
  ⟨σ identity.owner, identity.serial⟩

/-- Each identity stands for itself under its new owner. -/
def Pairing.ofOwners (σ : Nat → Nat) : Pairing := fun i i' => i' = i.renamed σ

theorem Pairing.oneToOne_ofOwners {σ : Nat → Nat} (hσ : ∀ m n, σ m = σ n → m = n) :
    (ofOwners σ).OneToOne where
  right_unique hj hj' := hj.trans hj'.symm
  left_unique := by
    rintro ⟨owner, serial⟩ ⟨owner', serial'⟩ j hi hi'
    obtain ⟨howner, hserial⟩ := Identity.mk.inj (hi.symm.trans hi')
    exact (Identity.mk.injEq ..).mpr ⟨hσ _ _ howner, hserial⟩

mutual

def Value.renamed (σ : Nat → Nat) : Value → Value
  | .inst identity typeName definition properties =>
    .inst (identity.renamed σ) typeName definition (propertiesRenamed σ properties)
  | .none => .none
  | .text s => .text s
  | .number x => .number x
  | .boolean b => .boolean b
  | .structureRef definition name => .structureRef definition name
  | .error e => .error e

def propertiesRenamed (σ : Nat → Nat) : List (Name × Value) → List (Name × Value)
  | [] => []
  | (name, value) :: rest => (name, value.renamed σ) :: propertiesRenamed σ rest

end

mutual

theorem Value.alike_ofOwners_iff {σ : Nat → Nat} :
    ∀ {value value' : Value}, value.Alike (.ofOwners σ) value' ↔ value' = value.renamed σ
  | .inst identity typeName definition properties, value' => by
      simp only [Value.Alike, Value.renamed, Pairing.ofOwners]
      constructor
      · rintro ⟨_, properties', rfl, rfl, hproperties⟩
        rw [PropertiesAlike.ofOwners_iff.mp hproperties]
      · rintro rfl
        exact ⟨_, _, rfl, rfl, PropertiesAlike.ofOwners_iff.mpr rfl⟩
  | .none, _ | .text _, _ | .number _, _ | .boolean _, _ | .structureRef _ _, _ | .error _, _ =>
      Iff.rfl

theorem PropertiesAlike.ofOwners_iff {σ : Nat → Nat} :
    ∀ {properties properties' : List (Name × Value)},
      PropertiesAlike (.ofOwners σ) properties properties' ↔
        properties' = propertiesRenamed σ properties
  | [], _ => Iff.rfl
  | (name, value) :: rest, properties' => by
      simp only [PropertiesAlike, propertiesRenamed]
      constructor
      · rintro ⟨value', rest', rfl, hvalue, hrest⟩
        rw [Value.alike_ofOwners_iff.mp hvalue, PropertiesAlike.ofOwners_iff.mp hrest]
      · rintro rfl
        exact ⟨_, _, rfl, Value.alike_ofOwners_iff.mpr rfl, PropertiesAlike.ofOwners_iff.mpr rfl⟩

end

theorem Value.alike_renamed (σ : Nat → Nat) (value : Value) :
    value.Alike (.ofOwners σ) (value.renamed σ) :=
  Value.alike_ofOwners_iff.mpr rfl

theorem propertiesRenamed_set (σ : Nat → Nat) (properties : Properties) (name : Name)
    (value : Value) :
    propertiesRenamed σ (properties.set name value) =
      Properties.set (propertiesRenamed σ properties) name (value.renamed σ) :=
  (PropertiesAlike.ofOwners_iff.mp
    ((PropertiesAlike.ofOwners_iff.mpr rfl).set (value.alike_renamed σ) name)).symm

/-- What comes of renamed operands. -/
def resultRenamed (σ : Nat → Nat) : Except Fault Value → Except Fault Value :=
  Except.map (Value.renamed σ)

theorem ResultsAlike.eq_renamed {σ : Nat → Nat} {result result' : Except Fault Value}
    (h : ResultsAlike (.ofOwners σ) result result') : result' = resultRenamed σ result := by
  cases h with
  | ok hvalue => rw [Value.alike_ofOwners_iff.mp hvalue]; rfl
  | error fault => rfl

namespace Context

/-- The same values for the same binds, under other owners. -/
def frameRenamed (σ : Nat → Nat) (frame : Frame) : Frame :=
  frame.map fun entry => (entry.1, entry.2.renamed σ)

/-- The context under another owner. -/
def renamed (σ : Nat → Nat) (context : Context) : Context :=
  { context with
    frames := context.frames.map (frameRenamed σ)
    demanded := frameRenamed σ context.demanded
    owner := σ context.owner }

theorem lookup_frameRenamed (σ : Nat → Nat) (frame : Frame) (bind : NodeId) :
    (frameRenamed σ frame).lookup bind = (frame.lookup bind).map (Value.renamed σ) := by
  induction frame with
  | nil => rfl
  | cons entry rest ih =>
      obtain ⟨key, value⟩ := entry
      simp only [frameRenamed, List.map_cons, List.lookup_cons]
      cases bind == key with
      | true => rfl
      | false => exact ih

theorem lookup?_renamed (σ : Nat → Nat) (context : Context) (bind : NodeId) :
    (context.renamed σ).lookup? bind = (context.lookup? bind).map (Value.renamed σ) := by
  have hframes (frames : List Frame) :
      (frames.map (frameRenamed σ)).findSome? (·.lookup bind) =
        (frames.findSome? (·.lookup bind)).map (Value.renamed σ) := by
    induction frames with
    | nil => rfl
    | cons frame rest ih =>
        simp only [List.map_cons, List.findSome?_cons, lookup_frameRenamed]
        cases frame.lookup bind with
        | some value => rfl
        | none => exact ih
  simp only [lookup?, renamed, hframes, lookup_frameRenamed]
  cases context.frames.findSome? (·.lookup bind) <;> rfl

theorem record_renamed (σ : Nat → Nat) (context : Context) (bind : NodeId) (value : Value) :
    (context.renamed σ).record bind (value.renamed σ) = (context.record bind value).renamed σ := by
  cases hframes : context.frames with
  | nil => simp only [record, renamed, hframes, List.map_nil, keep]; rfl
  | cons frame outer =>
      simp only [record, renamed, hframes, List.map_cons]
      rfl

theorem leave_renamed (σ : Nat → Nat) (context : Context) :
    (context.renamed σ).leave = context.leave.renamed σ := by
  simp only [leave, renamed, List.map_tail]

theorem enter_renamed (σ : Nat → Nat) (context : Context) (frame : CallFrame) :
    (context.renamed σ).enter frame = (context.enter frame).map (renamed σ) := by
  simp only [enter, renamed]
  cases context.callStack.push frame <;> rfl

theorem fresh_renamed (σ : Nat → Nat) (limits : Limits) (owner : Nat) :
    (fresh limits owner).renamed σ = fresh limits (σ owner) := rfl

end Context

/-- The outcome under other owners, `f` telling what becomes of the result. -/
def Outcome.renamed {α β : Type} (σ : Nat → Nat) (f : α → β) : Outcome α → Outcome β
  | .value result context => .value (f result) (context.renamed σ)
  | .error failure context => .error failure (context.renamed σ)
  | .unfinished => .unfinished

/-- Under other owners the second step does what the first one does. -/
def Step.Renames {α β : Type} (σ : Nat → Nat) (f : α → β) (step : Step α) (step' : Step β) : Prop :=
  ∀ context, step' (context.renamed σ) = (step context).renamed σ f

namespace Step.Renames

variable {α β γ δ : Type} {σ : Nat → Nat} {f : α → β} {g : γ → δ}

theorem pure (result : α) : Renames σ f (Pure.pure result) (Pure.pure (f result)) := fun _ => rfl

theorem fail (fault : Fault) : Renames σ f (Step.fail fault) (Step.fail fault) := fun _ => rfl

theorem bind {first : Step α} {first' : Step β} {next : α → Step γ} {next' : β → Step δ}
    (hfirst : Renames σ f first first')
    (hnext : ∀ result, Renames σ g (next result) (next' (f result))) :
    Renames σ g (first >>= next) (first' >>= next') := by
  intro context
  show Step.bind first' next' (context.renamed σ) = _
  rw [Step.bind, hfirst context]
  show _ = (Step.bind first next context).renamed σ g
  rw [Step.bind]
  cases first context with
  | value result later => exact hnext result later
  | error | unfinished => rfl

theorem lookup? (bind : NodeId) :
    Renames σ (Option.map (Value.renamed σ)) (Step.lookup? bind) (Step.lookup? bind) :=
  fun context => congrArg (Outcome.value · (context.renamed σ)) (context.lookup?_renamed σ bind)

theorem record (bind : NodeId) (value : Value) :
    Renames σ id (Step.record bind value) (Step.record bind (value.renamed σ)) :=
  fun context => congrArg (Outcome.value ()) (context.record_renamed σ bind value)

theorem keep (bind : NodeId) (value : Value) :
    Renames σ id (Step.keep bind value) (Step.keep bind (value.renamed σ)) := fun _ => rfl

theorem build (typeName : Name) (definition : NodeId) (properties : Properties) :
    Renames σ (Value.renamed σ) (Step.build typeName definition properties)
      (Step.build typeName definition (propertiesRenamed σ properties)) := fun _ => rfl

theorem located {step : Step α} {step' : Step β} (h : Renames σ f step step')
    (interner : Interner) (span : Span) :
    Renames σ f (Step.located interner span step) (Step.located interner span step') := by
  intro context
  simp only [Step.located, h context]
  cases step context <;> rfl

theorem inFrame {step : Step α} {step' : Step β} (h : Renames σ f step step')
    (interner : Interner) (frame : CallFrame) :
    Renames σ f (Step.inFrame interner frame step) (Step.inFrame interner frame step') := by
  intro context
  simp only [Step.inFrame, Context.enter_renamed]
  cases context.enter frame with
  | error failure => rfl
  | ok inner =>
      simp only [Except.map, h inner]
      cases step inner with
      | value result later => simp only [Outcome.renamed, Context.leave_renamed]
      | error failure later =>
          simp only [Outcome.renamed, Context.leave_renamed]
          rfl
      | unfinished => rfl

theorem ofExcept {result result' : Except Fault Value} (h : result' = resultRenamed σ result) :
    Renames σ (Value.renamed σ) (Step.ofExcept result) (Step.ofExcept result') := by
  subst h
  cases result with
  | ok value => exact .pure value
  | error fault => exact .fail fault

theorem checkType {source : Source} (type : Option DeclaredType) (value : Value) :
    Renames σ id (source.checkType type value) (source.checkType type (value.renamed σ)) := by
  cases type with
  | none => exact .pure ()
  | some type =>
      have halike := value.alike_renamed σ
      simp only [Source.checkType, halike.conforms_eq, halike.typeName_eq]
      split
      · exact .pure ()
      · exact .fail _

end Step.Renames

namespace Source

open Step

variable {source : Source} {σ : Nat → Nat} {recur : NodeId → Step Value}

section

variable (hrecur : ∀ node, Renames σ (Value.renamed σ) (recur node) (recur node))
include hrecur

theorem renames_evalSequence (last : Value) (ids : List NodeId) :
    Renames σ (Value.renamed σ) (evalSequence recur last ids)
      (evalSequence recur (last.renamed σ) ids) := by
  induction ids generalizing last with
  | nil => exact .pure last
  | cons id rest ih => exact .bind (hrecur id) ih

theorem renames_evalEach (ids : List NodeId) :
    Renames σ (List.map (Value.renamed σ)) (evalEach recur ids) (evalEach recur ids) := by
  induction ids with
  | nil => exact .pure []
  | cons id rest ih =>
      exact .bind (hrecur id) fun value => .bind ih fun values => .pure (value :: values)

theorem renames_inputValue (structureName : Name) (bind : BindNode) (arguments : List Value) :
    Renames σ (Value.renamed σ) (source.inputValue recur structureName bind arguments)
      (source.inputValue recur structureName bind (arguments.map (Value.renamed σ))) := by
  cases arguments with
  | cons argument arguments => exact .pure argument
  | nil =>
      cases hvalue : bind.value with
      | some default =>
          simp only [inputValue, hvalue, List.map_nil]
          exact hrecur default
      | none =>
          simp only [inputValue, hvalue, List.map_nil]
          exact .fail _

theorem renames_supplyInputs (structureName : Name) (inputs : List NodeId)
    (arguments : List Value) (properties : Properties) :
    Renames σ (propertiesRenamed σ)
      (source.supplyInputs recur structureName inputs arguments properties)
      (source.supplyInputs recur structureName inputs (arguments.map (Value.renamed σ))
        (propertiesRenamed σ properties)) := by
  induction inputs generalizing arguments properties with
  | nil => exact .pure properties
  | cons input rest ih =>
      cases hbind : source.bind? input with
      | none =>
          simp only [supplyInputs_cons_of_none hbind]
          exact ih arguments properties
      | some bind =>
          simp only [supplyInputs_cons hbind]
          refine .bind (renames_inputValue hrecur structureName bind arguments) fun value => ?_
          refine .bind (.checkType bind.type value) fun _ => .bind (.record input value) fun _ => ?_
          rw [← List.map_tail, ← propertiesRenamed_set]
          exact ih arguments.tail _

theorem renames_runBody (statements : List NodeId) (properties : Properties) :
    Renames σ (propertiesRenamed σ) (source.runBody recur statements properties)
      (source.runBody recur statements (propertiesRenamed σ properties)) := by
  induction statements generalizing properties with
  | nil => exact .pure properties
  | cons statement rest ih =>
      refine .bind (hrecur statement) fun value => ?_
      cases source.bind? statement with
      | none => exact ih properties
      | some bind =>
          simp only
          rw [← propertiesRenamed_set]
          exact ih _

theorem renames_construct (structureId : NodeId) (arguments : List Value) (callSpan : Span) :
    Renames σ (Value.renamed σ) (source.construct recur structureId arguments callSpan)
      (source.construct recur structureId (arguments.map (Value.renamed σ)) callSpan) := by
  simp only [construct]
  cases source.structure? structureId with
  | none => exact .fail _
  | some definition =>
      simp only [List.length_map]
      split
      · exact .fail _
      · refine .inFrame ?_ _ _
        exact .bind (renames_supplyInputs hrecur _ _ arguments []) fun properties =>
          .bind (renames_runBody hrecur _ properties) fun properties => .build _ _ properties

theorem renames_evalEvaluate (id callee : NodeId) (arguments : NodeRange) :
    Renames σ (Value.renamed σ) (source.evalEvaluate recur id callee arguments)
      (source.evalEvaluate recur id callee arguments) := by
  refine .bind (hrecur callee) fun called => .bind (renames_evalEach hrecur _) fun values => ?_
  cases called with
  | structureRef definition name => exact renames_construct hrecur definition values _
  | none | text | number | boolean | inst | error => exact .fail _

theorem renames_evalReference (id : NodeId) (name : Name) :
    Renames σ (Value.renamed σ) (source.evalReference recur id name)
      (source.evalReference recur id name) := by
  simp only [evalReference]
  cases source.definitionOf? id name with
  | none => exact .fail _
  | some definition =>
      cases definition with
      | structureDef definition => exact .pure (Value.structureRef definition name)
      | bind bind =>
          refine .bind (.lookup? bind) fun found => ?_
          cases found with
          | some value => exact .pure value
          | none =>
              exact .bind (hrecur bind) fun value => .bind (.keep bind value) fun _ => .pure value

theorem renames_evalKind (hσ : ∀ m n, σ m = σ n → m = n) (id : NodeId) :
    Renames σ (Value.renamed σ) (source.evalKind recur id) (source.evalKind recur id) := by
  have hpairing := Pairing.oneToOne_ofOwners hσ
  unfold evalKind
  cases source.kind id with
  | block statements => exact .inFrame (renames_evalSequence hrecur .none _) _ _
  | bind bind =>
      simp only [evalBind]
      cases bind.value with
      | none => exact .fail _
      | some node =>
          exact .bind (hrecur node) fun value => .bind (.checkType bind.type value) fun _ =>
            .bind (.record id value) fun _ => .pure value
  | structureDef definition => exact .pure (Value.structureRef id definition.name)
  | property subject member =>
      exact .bind (hrecur subject) fun value =>
        .ofExcept (propertyOf_alike (value.alike_renamed σ) member).eq_renamed
  | memberName name | reference name => exact renames_evalReference hrecur id name
  | evaluate callee arguments => exact renames_evalEvaluate hrecur id callee arguments
  | number bits => exact .pure (Value.number _)
  | text content => exact .pure (Value.text _)
  | boolean value => exact .pure (Value.boolean value)
  | binary op left right =>
      exact .bind (hrecur left) fun value => .bind (hrecur right) fun value' =>
        .ofExcept (Value.Alike.binary hpairing (value.alike_renamed σ) (value'.alike_renamed σ)
          source.interner op).eq_renamed
  | unary op operand =>
      exact .bind (hrecur operand) fun value =>
        .ofExcept ((value.alike_renamed σ).unary source.interner op).eq_renamed
  | conditional condition yes no =>
      refine .bind (hrecur condition) fun value => ?_
      cases value with
      | boolean choice => cases choice <;> exact hrecur _
      | none | text | number | structureRef | inst | error => exact .fail _

end

/-- Evaluation does not look at who owns its context. -/
theorem renames_eval (hσ : ∀ m n, σ m = σ n → m = n) (steps : Nat) (id : NodeId) :
    Renames σ (Value.renamed σ) (source.eval steps id) (source.eval steps id) := by
  induction steps generalizing id with
  | zero => exact fun _ => rfl
  | succ steps ih => exact (renames_evalKind ih hσ id).located _ _

theorem evaluate_renamed (hσ : ∀ m n, σ m = σ n → m = n) (id : NodeId) (context : Context) :
    (source.evaluate id (context.renamed σ)).1 = (source.evaluate id context).1.renamed σ := by
  have hbound : source.stepBound (context.renamed σ) = source.stepBound context := rfl
  simp only [evaluate, hbound, renames_eval hσ (source.stepBound context) id context]
  cases source.eval (source.stepBound context) id context <;> rfl

/-- Fresh contexts differ in nothing but the identities that they give. -/
theorem evaluate_fresh_alike (id : NodeId) (limits : Limits) (owner owner' : Nat) :
    ∃ pairing : Pairing, pairing.OneToOne ∧
      (source.evaluate id (.fresh limits owner)).1.Alike pairing
        (source.evaluate id (.fresh limits owner')).1 := by
  -- The two owners change places, so that no owner is lost.
  let σ (n : Nat) : Nat := if n = owner then owner' else if n = owner' then owner else n
  have hσ (m n : Nat) (h : σ m = σ n) : m = n := by
    grind
  have howner : σ owner = owner' := if_pos rfl
  refine ⟨.ofOwners σ, Pairing.oneToOne_ofOwners hσ, ?_⟩
  rw [← howner, ← Context.fresh_renamed, evaluate_renamed hσ]
  exact Value.alike_renamed σ _

end Source
end Bindery
