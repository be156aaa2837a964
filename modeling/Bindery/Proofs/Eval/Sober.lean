import Bindery.Proofs.Eval.Alike
import Bindery.Proofs.Eval.Storage

/-!
Evaluation without numbers that differ from themselves. Two instances of one identity are equal
without a look at what they hold. As long as no number is a NaN, a look would tell the same, so
nothing depends on which instances are shared. A sober evaluation gives up where a number is a NaN
or where identities would decide a comparison; where no NaN arises it is the evaluation.
-/

namespace Bindery

namespace Value

mutual

/-- Whatever identities instances have, values alike to other values look the same as these do. -/
theorem Alike.same_eq {pairing pairing' : Pairing} :
    ∀ {value value' other other' : Value}, value.Alike pairing value' →
      other.Alike pairing' other' → same value other = same value' other'
  | .inst identity typeName definition properties, _, other, _, h, h' => by
      obtain ⟨identity', properties', rfl, -, hproperties⟩ := h
      cases other with
      | inst identityO typeNameO definitionO propertiesO =>
          obtain ⟨identityO', propertiesO', rfl, -, hpropertiesO⟩ := h'
          simp only [same, propertiesAlike_same_eq hproperties hpropertiesO]
      | none | text | number | boolean | structureRef | error =>
          cases h'
          rfl
  | .none, _, other, _, h, h' | .text _, _, other, _, h, h' | .number _, _, other, _, h, h'
  | .boolean _, _, other, _, h, h' | .structureRef _ _, _, other, _, h, h'
  | .error _, _, other, _, h, h' => by
      cases h
      cases other with
      | inst =>
          obtain ⟨_, _, rfl, -, -⟩ := h'
          rfl
      | none | text | number | boolean | structureRef | error =>
          cases h'
          rfl

theorem propertiesAlike_same_eq {pairing pairing' : Pairing} :
    ∀ {properties properties' others others' : List (Name × Value)},
      PropertiesAlike pairing properties properties' → PropertiesAlike pairing' others others' →
        propertiesSame properties others = propertiesSame properties' others'
  | [], _, others, _, h, h' => by
      cases h
      cases others with
      | nil =>
          cases h'
          rfl
      | cons other rest =>
          obtain ⟨_, _, rfl, -, -⟩ := h'
          rfl
  | (name, value) :: rest, _, others, _, h, h' => by
      obtain ⟨value', rest', rfl, hvalue, hrest⟩ := h
      cases others with
      | nil =>
          cases h'
          rfl
      | cons other others =>
          obtain ⟨other', others', rfl, hother, hothers⟩ := h'
          simp only [propertiesSame, hvalue.same_eq hother, propertiesAlike_same_eq hrest hothers]

end

end Value

mutual

/-- The instances in the value are as they were built, and its numbers are equal to themselves. -/
def Value.Registered (registry : Registry) : Value → Prop
  | .inst identity _ definition properties =>
    registry identity = some (definition, properties) ∧ PropertiesRegistered registry properties
  | .number x => (x == x) = true
  | .error _ => False
  | .none | .text _ | .boolean _ | .structureRef _ _ => True

def PropertiesRegistered (registry : Registry) : List (Name × Value) → Prop
  | [] => True
  | (_, value) :: rest => value.Registered registry ∧ PropertiesRegistered registry rest

end

theorem propertiesRegistered_iff {registry : Registry} {properties : List (Name × Value)} :
    PropertiesRegistered registry properties ↔
      ∀ entry ∈ properties, entry.2.Registered registry := by
  induction properties with
  | nil => simp [PropertiesRegistered]
  | cons entry rest ih => simp [PropertiesRegistered, ih]

mutual

theorem Value.Registered.mono {registry registry' : Registry}
    (hle : ∀ identity built, registry identity = some built → registry' identity = some built) :
    ∀ {value : Value}, value.Registered registry → value.Registered registry'
  | .inst .., h => ⟨hle _ _ h.1, h.2.mono hle⟩
  | .none, h | .text _, h | .number _, h | .boolean _, h | .structureRef _ _, h | .error _, h => h

theorem PropertiesRegistered.mono {registry registry' : Registry}
    (hle : ∀ identity built, registry identity = some built → registry' identity = some built) :
    ∀ {properties : List (Name × Value)}, PropertiesRegistered registry properties →
      PropertiesRegistered registry' properties
  | [], h => h
  | (_, _) :: _, h => ⟨h.1.mono hle, h.2.mono hle⟩

end

mutual

theorem Value.Registered.stored {registry : Registry} :
    ∀ {value : Value}, value.Registered registry → value.Stored registry
  | .inst .., h => ⟨h.1, h.2.stored⟩
  | .none, _ | .text _, _ | .number _, _ | .boolean _, _ | .structureRef _ _, _ => trivial

theorem PropertiesRegistered.stored {registry : Registry} :
    ∀ {properties : List (Name × Value)}, PropertiesRegistered registry properties →
      PropertiesStored registry properties
  | [], _ => trivial
  | (_, _) :: _, h => ⟨h.1.stored, h.2.stored⟩

end

mutual

theorem Value.Registered.nanFree {registry : Registry} :
    ∀ {value : Value}, value.Registered registry → value.NaNFree
  | .inst .., h => h.2.nanFree
  | .number _, h => float_beq_self_iff.mp h
  | .none, _ | .text _, _ | .boolean _, _ | .structureRef _ _, _ => trivial

theorem PropertiesRegistered.nanFree {registry : Registry} :
    ∀ {properties : List (Name × Value)}, PropertiesRegistered registry properties →
      Value.PropertiesNaNFree properties
  | [], _ => trivial
  | (_, _) :: _, h => ⟨h.1.nanFree, h.2.nanFree⟩

end

/-- Between values that are as they were built, identities do not matter. -/
theorem Value.Registered.beq_eq_same {registry : Registry} {value other : Value}
    (h : value.Registered registry) (h' : other.Registered registry) :
    value.beq other = value.same other :=
  (h.stored.beq_eq_same_iff h'.stored).mpr fun _ => h.nanFree

/-- The registry tells of all that was built in the context, and whatever the context holds is as it
was built. -/
structure Registry.Covers (registry : Registry) (context : Context) : Prop where
  known : ∀ identity built, registry identity = some built →
    identity.owner = context.owner ∧ identity.serial < context.built
  held : context.HoldsOnly fun _ value => value.Registered registry

namespace Registry

variable {registry : Registry} {context : Context}

namespace Covers

theorem nextIdentity (h : registry.Covers context) : registry context.nextIdentity = none :=
  Knows.nextIdentity h.known

theorem build (h : registry.Covers context) (built : NodeId × Properties) :
    (registry.add context.nextIdentity built).Covers
      { context with built := context.built + 1 } := by
  have hheld : context.HoldsOnly fun _ value =>
      value.Registered (registry.add context.nextIdentity built) :=
    h.held.mono fun _ value hvalue => hvalue.mono (add_mono h.nextIdentity)
  exact ⟨Knows.add h.known built, hheld.frames, hheld.demanded⟩

end Covers

theorem covers_fresh (limits : Limits) (owner : Nat) :
    Registry.Covers (fun _ => none) (.fresh limits owner) :=
  ⟨fun _ _ h => (by cases h), .fresh limits owner⟩

end Registry

namespace Source

variable {source : Source}

/-- Contexts and values as they were built, where no number is a NaN. -/
def builds (source : Source) : Discipline source Registry where
  le registry registry' := ∀ identity built,
    registry identity = some built → registry' identity = some built
  holds registry context := registry.Covers context
  good registry value := value.Registered registry
  admits _ := True
  le_refl _ _ _ h := h
  le_trans h h' identity built hbuilt := h' identity built (h identity built hbuilt)
  good_mono h hgood := hgood.mono h
  good_none _ := trivial
  good_text _ _ := trivial
  good_boolean _ _ := trivial
  good_structureRef _ _ _ _ := trivial
  good_property h hget := propertiesRegistered_iff.mp h.2 _ (Properties.mem_of_get?_eq_some hget)
  lookup? h hlookup := h.held.lookup? hlookup
  record h hgood _ := ⟨Registry.Knows.record h.known _ _, h.held.record hgood⟩
  keep h hgood _ := ⟨h.known, h.held.keep hgood⟩
  enter h henter := ⟨Registry.Knows.enter h.known henter, h.held.enter henter⟩
  leave h := ⟨h.known, h.held.leave⟩
  build {registry context id definition bound} h _ _ hbound := by
    refine ⟨registry.add context.nextIdentity (id, Properties.ofBinds bound),
      Registry.add_mono h.nextIdentity, h.build _, by rw [Registry.add, if_pos rfl], ?_⟩
    refine propertiesRegistered_iff.mpr fun entry hentry => ?_
    obtain ⟨bind, hbind⟩ := Properties.mem_ofBinds hentry
    exact (hbound _ hbind).1.mono (Registry.add_mono h.nextIdentity)
  fail _ := trivial
  overflow _ := trivial

/-- Goes on if identities do not decide how the values compare. -/
def compared (left right : Value) : Step Unit :=
  if left.beq right = left.same right then pure () else .giveUp

/-- Evaluates a node, values being compared only where identities do not matter. -/
def soberKind (source : Source) (recur : NodeId → Step Value) (id : NodeId) : Step Value :=
  match source.kind id with
  | .binary op left right => do
    let left ← recur left
    let right ← recur right
    compared left right
    .ofExcept (op.apply source.interner left right)
  | _ => source.evalKind recur id

/-- A number has to be equal to itself. -/
def sober (step : Step Value) : Step Value := fun context =>
  match step context with
  | .value (.number x) later => if x == x then .value (.number x) later else .unfinished
  | outcome => outcome

/-- The evaluation of a node, which is given up as soon as a number is a NaN or identities would
matter. -/
def evalSober (source : Source) : (steps : Nat) → NodeId → Step Value
  | 0, _ => .giveUp
  | steps + 1, id =>
    sober (.located source.interner (source.span id) (source.soberKind (evalSober source steps) id))

theorem soberKind_eq {recur : NodeId → Step Value} {id : NodeId}
    (h : ∀ op left right, source.kind id ≠ .binary op left right) :
    source.soberKind recur id = source.evalKind recur id := by
  simp only [soberKind]

theorem sober_eq (step : Step Value) (context : Context) :
    sober step context = .unfinished ∨ sober step context = step context := by
  simp only [sober]
  split
  · rename_i hstep
    split
    · exact .inr hstep.symm
    · exact .inl rfl
  · exact .inr rfl

/-- A sober evaluation comes to nothing but what the evaluation comes to. -/
theorem extends_evalSober (steps : Nat) (id : NodeId) (context : Context) :
    Step.Extends Value context (source.evalSober steps id) (source.eval steps id) := by
  induction steps generalizing id context with
  | zero => exact .inl rfl
  | succ steps ih =>
      have hkind : Step.Extends Value context (source.soberKind (source.evalSober steps) id)
          (source.evalKind (source.eval steps) id) := by
        by_cases hbinary : ∃ op left right, source.kind id = .binary op left right
        · obtain ⟨op, left, right, hbinary⟩ := hbinary
          simp only [soberKind, evalKind, hbinary, evalBinary]
          refine Step.congruence_extends.bind (ih left context) fun value between _ => ?_
          refine Step.congruence_extends.bind (ih right between) fun value' later _ => ?_
          simp only [compared]
          split
          · exact .inr rfl
          · exact .inl rfl
        · rw [soberKind_eq fun op left right heq => hbinary ⟨op, left, right, heq⟩]
          exact evalKind_congr_of_calls Step.congruence_extends fun _ node later _ => ih node later
      have hlocated := hkind.located source.interner (source.span id)
      simp only [Step.Extends, evalSober]
      rcases sober_eq (.located source.interner (source.span id)
        (source.soberKind (source.evalSober steps) id)) context with hsober | hsober
      · exact .inl hsober
      · rw [hsober]
        exact hlocated

theorem governs_evalSober (hsource : source.WellFormed) (steps : Nat) :
    source.builds.Governs (source.evalSober steps) := by
  induction steps with
  | zero => exact fun _ _ _ _ => trivial
  | succ steps ih =>
      intro id registry context hholds
      have hkind : source.builds.Keeps registry
          (fun registry value => source.builds.Result registry value ∧ source.Accepts id value)
          (source.soberKind (source.evalSober steps) id context) := by
        by_cases hbinary : ∃ op left right, source.kind id = .binary op left right
        · obtain ⟨op, left, right, hbinary⟩ := hbinary
          simp only [soberKind, hbinary]
          refine .bind (Discipline.keeps_recur ih hholds) fun _ value _ _ hholds₁ hvalue => ?_
          refine .bind (Discipline.keeps_recur ih hholds₁) fun _ value' _ _ hholds₂ _ => ?_
          simp only [compared]
          split
          · refine (Discipline.keeps_ofExcept hholds₂
              (Discipline.answer_binary hvalue source.interner op value')).weaken
              fun _ _ _ hresult => ⟨hresult, fun bind hbind => ?_⟩
            simp [bind?, hbinary] at hbind
          · trivial
        · rw [soberKind_eq fun op left right heq => hbinary ⟨op, left, right, heq⟩]
          exact Discipline.keeps_evalKind ih hsource hholds
      have hlocated : source.builds.Keeps registry _ (Step.located source.interner (source.span id)
        (source.soberKind (source.evalSober steps) id) context) := .located hkind
      simp only [evalSober, sober]
      generalize Step.located source.interner (source.span id)
        (source.soberKind (source.evalSober steps) id) context = outcome at hlocated
      split
      · split
        · rename_i hself
          obtain ⟨registry', hle, hlater, -, haccepts⟩ := hlocated
          exact ⟨registry', hle, hlater, hself, haccepts⟩
        · trivial
      · rename_i hnumber
        cases outcome with
        | value value later =>
            obtain ⟨registry', hle, hlater, hgood | ⟨-, x, rfl⟩, haccepts⟩ := hlocated
            · exact ⟨registry', hle, hlater, hgood, haccepts⟩
            · exact absurd rfl (hnumber x later)
        | error => exact hlocated
        | unfinished => trivial

section Extends

variable {recur recur' : NodeId → Step Value}
  (hrecur : ∀ node context, Step.Extends Value context (recur node) (recur' node))
include hrecur

theorem Constructs.of_extends {id structureId : NodeId} {definition : StructureNode}
    {values : List Value} {context inner : Context}
    (h : source.Constructs recur id context structureId definition values inner) :
    source.Constructs recur' id context structureId definition values inner := by
  obtain ⟨callee, arguments, name, between, later, hkind, hcallee, harguments, henter⟩ := h.called
  have harguments' : Step.Extends (List Value) between (evalEach recur (source.list arguments))
      (evalEach recur' (source.list arguments)) :=
    evalEach_congr Step.congruence_extends.toCongruence
      fun _ node _ _ later _ _ => hrecur node later
  exact ⟨⟨callee, arguments, name, between, later, hkind, (hrecur _ _).of_value hcallee,
    harguments'.of_value harguments, henter⟩, h.defined, h.length_le⟩

/-- What an evaluation calls, another one calls that comes to the same as far as the first one comes
to an end. -/
theorem Calls.of_extends {id node : NodeId} {context later : Context} {entered : Option NodeId}
    (h : source.Calls recur id context entered node later) :
    source.Calls recur' id context entered node later := by
  have hsequence (last : Value) (ids : List NodeId) (context : Context) :
      Step.Extends Value context (evalSequence recur last ids) (evalSequence recur' last ids) :=
    evalSequence_congr Step.congruence_extends.toCongruence
      fun _ node _ _ later _ _ => hrecur node later
  have heach (ids : List NodeId) (context : Context) :
      Step.Extends (List Value) context (evalEach recur ids) (evalEach recur' ids) :=
    evalEach_congr Step.congruence_extends.toCongruence
      fun _ node _ _ later _ _ => hrecur node later
  have hinputs (name : Name) (ids : List NodeId) (values : List Value) (properties : Properties)
      (context : Context) :
      Step.Extends Properties context (source.supplyInputs recur name ids values properties)
        (source.supplyInputs recur' name ids values properties) :=
    supplyInputs_congr Step.congruence_extends.toCongruence
      fun _ _ _ _ later _ node _ _ _ _ _ => hrecur node later
  have hbody (ids : List NodeId) (properties : Properties) (context : Context) :
      Step.Extends Properties context (source.runBody recur ids properties)
        (source.runBody recur' ids properties) :=
    runBody_congr Step.congruence_extends.toCongruence
      fun _ node _ _ later _ _ => hrecur node later
  cases h with
  | statement hkind hlist henter hbefore =>
      exact .statement hkind hlist henter ((hsequence ..).of_value hbefore)
  | value hkind hvalue => exact .value hkind hvalue
  | demanded hkind hdefinition hlookup => exact .demanded hkind hdefinition hlookup
  | subject hkind => exact .subject hkind
  | callee hkind => exact .callee hkind
  | argument hkind hlist hcallee hbefore =>
      exact .argument hkind hlist ((hrecur _ _).of_value hcallee) ((heach ..).of_value hbefore)
  | default hconstructs hlist hbefore hlength hbind hvalue =>
      exact .default (hconstructs.of_extends hrecur) hlist ((hinputs ..).of_value hbefore) hlength
        hbind hvalue
  | bodyStatement hconstructs hsupplied hlist hbefore =>
      exact .bodyStatement (hconstructs.of_extends hrecur) ((hinputs ..).of_value hsupplied) hlist
        ((hbody ..).of_value hbefore)
  | left hkind => exact .left hkind
  | right hkind hleft => exact .right hkind ((hrecur _ _).of_value hleft)
  | operand hkind => exact .operand hkind
  | condition hkind => exact .condition hkind
  | branch hkind hcondition => exact .branch hkind ((hrecur _ _).of_value hcondition)

end Extends

/-- Neither the evaluation of a node nor any that it asks for comes to a NaN. -/
def Exact (source : Source) : (steps : Nat) → NodeId → Context → Prop
  | 0, _, _ => True
  | steps + 1, id, context =>
    (∀ x later, source.eval (steps + 1) id context = .value (.number x) later → (x == x) = true) ∧
    ∀ entered node later, source.Calls (source.eval steps) id context entered node later →
      Exact source steps node later

/-- Where no NaN arises the sober evaluation is the evaluation. -/
theorem evalSober_eq (hsource : source.WellFormed) {steps : Nat} {id : NodeId} {context : Context}
    (hexact : source.Exact steps id context) {registry : Registry}
    (hcovers : registry.Covers context) :
    source.evalSober steps id context = source.eval steps id context := by
  induction steps generalizing id context registry with
  | zero => rfl
  | succ steps ih =>
      have hgoverns := source.governs_evalSober hsource steps
      have hcalls (entered : Option NodeId) (node : NodeId) (later : Context)
          (hcall : source.Calls (source.evalSober steps) id context entered node later) :
          source.evalSober steps node later = source.eval steps node later := by
        obtain ⟨registry', -, hcovers'⟩ := Discipline.of_calls hgoverns hcovers hcall
        exact ih (hexact.2 _ _ _ (hcall.of_extends (source.extends_evalSober steps))) hcovers'
      have hkind : source.soberKind (source.evalSober steps) id context =
          source.evalKind (source.eval steps) id context := by
        by_cases hbinary : ∃ op left right, source.kind id = .binary op left right
        · obtain ⟨op, left, right, hbinary⟩ := hbinary
          simp only [soberKind, evalKind, hbinary, evalBinary, Step.bind_apply]
          have hleft := hcalls _ _ _ (.left hbinary)
          rw [← hleft]
          cases hvalue : source.evalSober steps left context with
          | value value between =>
              have hright := hcalls _ _ _ (.right hbinary hvalue)
              obtain ⟨registry₁, -, hcovers₁, hgood₁⟩ :=
                (Discipline.keeps_recur hgoverns hcovers).of_value hvalue
              simp only
              rw [← hright]
              cases hvalue' : source.evalSober steps right between with
              | value value' later =>
                  obtain ⟨registry₂, hle, -, hgood₂⟩ :=
                    (Discipline.keeps_recur hgoverns hcovers₁).of_value hvalue'
                  have hsame := (source.builds.good_mono hle hgood₁).beq_eq_same hgood₂
                  simp only [compared, if_pos hsame]
                  rfl
              | error | unfinished => rfl
          | error | unfinished => rfl
        · rw [soberKind_eq fun op left right heq => hbinary ⟨op, left, right, heq⟩]
          exact evalKind_congr_of_calls Step.congruence_eq hcalls
      have hlocated : Step.located source.interner (source.span id)
          (source.soberKind (source.evalSober steps) id) context =
          source.eval (steps + 1) id context := by
        simp only [eval, Step.located, hkind]
      simp only [evalSober, sober, hlocated]
      split
      · rename_i x later hvalue
        rw [if_pos (hexact.1 x later hvalue), hvalue]
      · rfl

end Source
end Bindery
